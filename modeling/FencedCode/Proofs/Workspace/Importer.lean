import FencedCode.Proofs.Module.Origin
import FencedCode.Proofs.Path.Parent
import FencedCode.Proofs.Workspace.Recall
import FencedCode.Proofs.Workspace.Redirect
import FencedCode.Proofs.Workspace.Spelling

/-!
# Spellings of importing files

What a name stands for in a file depends on the folder of the file. A relative name in a written
file is read from the folder of the normal form. The resolver reads its names from the folder that
it takes from the spelling it is given, so two spellings of a file have the same answers exactly
when their folders are spellings of one folder.
-/

namespace FencedCode

open FencedCode.Path (EndsPlainly isAbsolute isRelative join normalize normalize_eq_of_join_dot_eq
  normalize_parent_eq parent)

namespace ResolverConfig

variable {importer other name : Text} {v : FileView}

/-- The resolver takes nothing but a folder from the importing file. -/
theorem resolver_eq_of_folder (h : normalize (parent importer) = normalize (parent other))
    (config : ResolverConfig) (name : Text) :
    config.resolver name other = config.resolver name importer := by
  have hjoin := Path.join_eq_join h (Path.parent_ne_nil importer) (Path.parent_ne_nil other) name
  have hinstalled : Installed.resolve name (parent other) =
      Installed.resolve name (parent importer) := by rw [Installed.resolve, ← h, Installed.resolve]
  rw [resolver, ← hjoin, hinstalled, resolver]

/-- The name stands for the same from every folder: it spells a whole path, or it is a bare name
that a file of the project is found for. -/
def IsAnchored (config : ResolverConfig) (v : FileView) (name : Text) : Prop :=
  isAbsolute name ∨ ¬ isRelative name ∧ (v.firstFileAt (config.mappedPaths name)).isSome

theorem eval_resolver_of_isAnchored {config : ResolverConfig} (h : config.IsAnchored v name) :
    v.eval (config.resolver name other) = v.eval (config.resolver name importer) := by
  by_cases habsolute : isAbsolute name
  · rw [config.resolver_of_isAbsolute habsolute other,
      config.resolver_of_isAbsolute habsolute importer]
  · obtain ⟨hrelative, hmapped⟩ := h.resolve_left habsolute
    have hbare : ¬ (isRelative name || isAbsolute name) = true := by simp [hrelative, habsolute]
    obtain ⟨file, hfile⟩ := Option.isSome_iff_exists.mp hmapped
    have hown (importer : Text) : config.ownPaths name importer = config.mappedPaths name :=
      if_neg hbare
    rw [eval_resolver, eval_resolver, hown, hown, hfile]

end ResolverConfig

namespace ResolutionMemo

theorem kept?_of_size_eq_zero {memo : ResolutionMemo} (h : memo.size = 0) (importer name : Text) :
    memo.kept? importer name = none := by
  have hentries : memo.outcomes.entries = [] := List.length_eq_zero_iff.mp h
  rw [kept?, Table.get?, hentries]
  rfl

theorem kept?_keep_importer (memo : ResolutionMemo) (importer name : Text)
    (outcome : Option ResolvedModule) (other : Text) :
    (memo.keep importer name outcome).kept? importer other =
      if name = other then some outcome else memo.kept? importer other := by
  simp [kept?, keep]

end ResolutionMemo

namespace Workspace

variable {fs : FileSystem} {w w' middle : Workspace} {importer other name : Text}

/-! ## One name in two files -/

/-- The name comes to the same in both files, as far as it is not remembered. -/
def MeansSame (fs : FileSystem) (w : Workspace) (importer other name : Text) : Prop :=
  match w.redirects.get? name with
  | some redirect => (w.view fs).eval (w.resolver redirect.target other) =
      (w.view fs).eval (w.resolver redirect.target importer)
  | none => isRelative name ∧ w.isVirtual importer ∨
      (w.view fs).eval (w.resolver name other) = (w.view fs).eval (w.resolver name importer)

theorem MeansSame.of_agrees (h : MeansSame fs w importer other name) (hagrees : w.Agrees middle)
    (hshown : ShowsSame fs w middle) : MeansSame fs middle importer other name := by
  unfold MeansSame
  rw [hagrees.redirects, hagrees.resolver, hshown.view_eq, isVirtual, hagrees.overlay]
  exact h

/-- The workspaces are alike, each seen from its own file. -/
structure Mirrors (fs : FileSystem) (importer other : Text) (w w' : Workspace) : Prop where
  agrees : w.Agrees w'
  shown : ShowsSame fs w w'
  kept : ∀ name, w'.memo.kept? other name = w.memo.kept? importer name

theorem Mirrors.isVirtual_eq (h : Mirrors fs importer other w w')
    (hspelled : normalize importer = normalize other) :
    w'.isVirtual other = w.isVirtual importer := by
  rw [← isVirtual_normalize w', ← hspelled, isVirtual_normalize, isVirtual, h.agrees.overlay,
    isVirtual]

theorem Mirrors.isOrdinary_iff (h : Mirrors fs importer other w w')
    (hspelled : normalize importer = normalize other) (name : Text) :
    (Request.mk fs w' other name).IsOrdinary ↔ (Request.mk fs w importer name).IsOrdinary := by
  unfold Request.IsOrdinary
  rw [h.agrees.redirects, h.isVirtual_eq hspelled]

/-- What the name comes to in the two files is the same to remember, or is remembered already. -/
theorem Mirrors.resolveName_of_isOrdinary (h : Mirrors fs importer other w w')
    (hspelled : normalize importer = normalize other)
    (hordinary : (Request.mk fs w importer name).IsOrdinary)
    (hname : (w.view fs).eval (w.resolver name other) =
      (w.view fs).eval (w.resolver name importer)) :
    (resolveName fs other name w').1 = (resolveName fs importer name w).1 ∧
      ∀ last, (resolveName fs other name w').2.memo.kept? other last =
        (resolveName fs importer name w).2.memo.kept? importer last := by
  have hordinary' := (h.isOrdinary_iff hspelled name).mpr hordinary
  rw [resolveName_of_ordinary hordinary.1 hordinary.2,
    resolveName_of_ordinary hordinary'.1 hordinary'.2]
  cases hkept : w.memo.kept? importer name with
  | some found =>
    rw [resolveOrdinary_of_kept hkept, resolveOrdinary_of_kept ((h.kept name).trans hkept)]
    exact ⟨rfl, h.kept⟩
  | none =>
    have hfound : (runLookup fs (w'.resolver name other) w').1 =
        (runLookup fs (w.resolver name importer) w).1 := by
      rw [runLookup_fst, runLookup_fst, h.shown.view_eq, h.agrees.resolver, hname]
    rw [resolveOrdinary_of_new hkept, resolveOrdinary_of_new ((h.kept name).trans hkept), hfound]
    refine ⟨rfl, fun last ↦ ?_⟩
    show (w'.memo.keep other name _).kept? other last =
      (w.memo.keep importer name _).kept? importer last
    rw [ResolutionMemo.kept?_keep_importer, ResolutionMemo.kept?_keep_importer, h.kept]

theorem Mirrors.resolveName_of_redirect (h : Mirrors fs importer other w w') {redirect : Redirect}
    (hredirect : w.redirects.get? name = some redirect)
    (hname : (w.view fs).eval (w.resolver redirect.target other) =
      (w.view fs).eval (w.resolver redirect.target importer)) :
    (resolveName fs other name w').1 = (resolveName fs importer name w).1 := by
  have hredirect' : w'.redirects.get? name = some redirect := by
    rw [h.agrees.redirects, hredirect]
  rw [Workspace.resolveName_of_redirect hredirect, Workspace.resolveName_of_redirect hredirect',
    runLookup_fst, runLookup_fst, h.shown.view_eq, h.agrees.resolver, hname]

/-- The folder of the normal form is the folder of every spelling. -/
theorem Mirrors.resolveName_of_relative (h : Mirrors fs importer other w w')
    (hspelled : normalize importer = normalize other) (hredirect : w.redirects.get? name = none)
    (hrelative : isRelative name) (hvirtual : w.isVirtual importer) :
    (resolveName fs other name w').1 = (resolveName fs importer name w).1 := by
  have hredirect' : w'.redirects.get? name = none := by rw [h.agrees.redirects, hredirect]
  have hvirtual' : w'.isVirtual other := (h.isVirtual_eq hspelled).trans hvirtual
  rw [Workspace.resolveName_of_relative hredirect hrelative hvirtual,
    Workspace.resolveName_of_relative hredirect' hrelative hvirtual', relativeTarget, ← hspelled,
    ← relativeTarget, h.shown.runLookup_eq]

/-- A name that means the same in both files has one answer, after which the two remember the same.
-/
theorem Mirrors.answer_eq (h : Mirrors fs importer other w w')
    (hspelled : normalize importer = normalize other) (hname : MeansSame fs w importer other name) :
    (resolveName fs other name w').1 = (resolveName fs importer name w).1 ∧
      ∀ last, (resolveName fs other name w').2.memo.kept? other last =
        (resolveName fs importer name w).2.memo.kept? importer last := by
  unfold MeansSame at hname
  by_cases hordinary : (Request.mk fs w importer name).IsOrdinary
  · rw [hordinary.1] at hname
    exact h.resolveName_of_isOrdinary hspelled hordinary (hname.resolve_left hordinary.2)
  · refine ⟨?_, fun last ↦ ?_⟩
    · cases hredirect : w.redirects.get? name with
      | some redirect =>
        rw [hredirect] at hname
        exact h.resolveName_of_redirect hredirect hname
      | none =>
        obtain ⟨hrelative, hvirtual⟩ : isRelative name ∧ w.isVirtual importer :=
          Classical.not_not.mp fun hroute ↦ hordinary ⟨hredirect, hroute⟩
        exact h.resolveName_of_relative hspelled hredirect hrelative hvirtual
    · -- What is looked up anew each time leaves no trace in the memo.
      have hmemo := Request.memo_next_of_not_isOrdinary hordinary
      have hmemo' := Request.memo_next_of_not_isOrdinary
        (mt (h.isOrdinary_iff hspelled name).mp hordinary)
      calc (resolveName fs other name w').2.memo.kept? other last
        _ = w'.memo.kept? other last := congrArg (·.kept? other last) hmemo'
        _ = w.memo.kept? importer last := h.kept last
        _ = (resolveName fs importer name w).2.memo.kept? importer last :=
          (congrArg (·.kept? importer last) hmemo).symm

/-- After a name that means the same in both files the workspaces are still alike. -/
theorem Mirrors.resolveName (h : Mirrors fs importer other w w')
    (hspelled : normalize importer = normalize other) (hname : MeansSame fs w importer other name) :
    Mirrors fs importer other (resolveName fs importer name w).2
      (resolveName fs other name w').2 where
  agrees := (onlyAsks_resolveName fs importer name w).symm.trans
    (h.agrees.trans (onlyAsks_resolveName fs other name w'))
  shown := (showsSame_resolveName fs importer name w).symm.trans
    (h.shown.trans (showsSame_resolveName fs other name w'))
  kept := (h.answer_eq hspelled hname).2

/-- Names that mean the same in both files have the same answers as a batch. -/
theorem Mirrors.resolveNames (h : Mirrors fs importer other w w')
    (hspelled : normalize importer = normalize other) {names : List Text}
    (hnames : ∀ name ∈ names, MeansSame fs w importer other name) :
    (resolveNames fs other names w').1 = (resolveNames fs importer names w).1 := by
  induction names generalizing w w' with
  | nil => rfl
  | cons name rest ih =>
    obtain ⟨hname, hrest⟩ := List.forall_mem_cons.mp hnames
    have hrest' : ∀ last ∈ rest,
        MeansSame fs (Workspace.resolveName fs importer name w).2 importer other last :=
      fun last hlast ↦ (hrest last hlast).of_agrees (onlyAsks_resolveName fs importer name w)
        (showsSame_resolveName fs importer name w)
    rw [resolveNames_cons_fst, resolveNames_cons_fst, (h.answer_eq hspelled hname).1,
      ih (h.resolveName hspelled hname) hrest']

/-- Nothing is remembered, so the workspace looks the same from all files. -/
theorem mirrors_of_size_eq_zero (fs : FileSystem) (h : w.memo.size = 0) (importer other : Text) :
    Mirrors fs importer other w w := by
  refine ⟨Agrees.refl w, ShowsSame.refl fs w, fun name ↦ ?_⟩
  rw [ResolutionMemo.kept?_of_size_eq_zero h, ResolutionMemo.kept?_of_size_eq_zero h]

/-! ## Spellings of one file -/

/-- The name asks for no folder but that of the normal form. Redirects stand for their targets. -/
def IsAnchored (fs : FileSystem) (w : Workspace) (config : ResolverConfig) (importer name : Text) :
    Prop :=
  match w.redirects.get? name with
  | some redirect => config.IsAnchored (w.view fs) redirect.target
  | none => isRelative name ∧ w.isVirtual importer ∨ config.IsAnchored (w.view fs) name

theorem MeansSame.of_isAnchored {config : ResolverConfig} (hresolver : w.resolver = config.resolver)
    (h : IsAnchored fs w config importer name) : MeansSame fs w importer other name := by
  unfold IsAnchored at h
  unfold MeansSame
  rw [hresolver]
  split at h
  · exact ResolverConfig.eval_resolver_of_isAnchored h
  · exact h.imp_right ResolverConfig.eval_resolver_of_isAnchored

theorem MeansSame.of_folder {config : ResolverConfig} (hresolver : w.resolver = config.resolver)
    (h : normalize (parent importer) = normalize (parent other)) (name : Text) :
    MeansSame fs w importer other name := by
  unfold MeansSame
  rw [hresolver]
  split
  · rw [config.resolver_eq_of_folder h]
  · exact .inr (by rw [config.resolver_eq_of_folder h])

/-- A disk on which every file exists. -/
def everyFile : FileSystem := ⟨fun _ ↦ true, fun _ ↦ false, fun _ ↦ none, fun _ ↦ none⟩

/-- Where every file exists, a relative name shows the folder that it was read from. -/
theorem resolveNames_everyFile (importer : Text) : ∃ kind,
    (resolveNames everyFile importer ["./x.ts".toList]
      (new .empty (ResolverConfig.mk none []).resolver Table.empty)).1 =
        .ok [some ⟨join (parent importer) "./x.ts".toList, kind, false, none⟩] := by
  generalize hw : new .empty (ResolverConfig.mk none []).resolver Table.empty = w
  have hplain : Path.IsPlain "x.ts".toList := by decide
  have hredirect : w.redirects.get? "./x.ts".toList = none := by rw [← hw]; rfl
  have hvirtual : ¬ w.isVirtual importer := by rw [← hw]; exact Bool.false_ne_true
  have hkept : w.memo.kept? importer "./x.ts".toList = none := by rw [← hw]; rfl
  have hresolver : w.resolver = (ResolverConfig.mk none []).resolver := by rw [← hw]; rfl
  have hsuffix : FileKind.ts.ending <:+ join (parent importer) "./x.ts".toList :=
    List.IsSuffix.trans (by decide) (hplain.suffix_join (Path.parent_ne_nil importer))
  obtain ⟨kind, hkind⟩ := FileKind.exists_ofName?_of_suffix hsuffix
  have hfound : (w.view everyFile).eval (Lookup.fileOrFolder (join (parent importer)
      "./x.ts".toList)) = some (join (parent importer) "./x.ts".toList) := by
    rw [FileView.eval_fileOrFolder, FileView.candidates, Lookup.fileCandidates, hkind]
    refine List.find?_cons_of_pos ?_
    exact Bool.or_true _
  refine ⟨kind, ?_⟩
  rw [resolveNames_cons_fst, resolveName_of_ordinary hredirect (fun hroute ↦ hvirtual hroute.2),
    resolveOrdinary_of_new hkept, runLookup_fst, hresolver, eval_resolver,
    ResolverConfig.ownPaths, if_pos (by decide), FileView.firstFileAt_singleton, hfound]
  show Except.ok [ResolvedModule.ofFile? _] = _
  rw [ResolvedModule.ofFile?_of_ofName? hkind]

/-- As long as nothing is remembered, two spellings of an importing file have the same answers for
all names, options, files and disks exactly when their folders are spellings of one folder.
Spellings that end plainly have one folder. Whatever the spellings are, they have the same answers
for names that ask for no folder but that of the normal form. -/
theorem resolveNames_spelled_iff (importer other : Text)
    (hspelled : normalize importer = normalize other) :
    ((∀ (config : ResolverConfig) (fs : FileSystem) (w : Workspace) (names : List Text),
      w.resolver = config.resolver → w.memo.size = 0 →
        (resolveNames fs other names w).1 = (resolveNames fs importer names w).1) ↔
      normalize (parent importer) = normalize (parent other)) ∧
    (EndsPlainly importer → EndsPlainly other →
      normalize (parent importer) = normalize (parent other)) ∧
    ∀ (config : ResolverConfig) (fs : FileSystem) (w : Workspace) (names : List Text),
      w.resolver = config.resolver → w.memo.size = 0 →
        (∀ name ∈ names, IsAnchored fs w config importer name) →
          (resolveNames fs other names w).1 = (resolveNames fs importer names w).1 := by
  refine ⟨⟨fun h ↦ ?_, fun h config fs w names hresolver hmemo ↦ ?_⟩, fun hplain hplain' ↦ ?_,
    fun config fs w names hresolver hmemo hnames ↦ ?_⟩
  · obtain ⟨kind, hfirst⟩ := resolveNames_everyFile importer
    obtain ⟨kind', hsecond⟩ := resolveNames_everyFile other
    have hsame := h ⟨none, []⟩ everyFile _ ["./x.ts".toList]
      (rfl : (new .empty (ResolverConfig.mk none []).resolver Table.empty).resolver = _) rfl
    rw [hfirst, hsecond] at hsame
    simp only [Except.ok.injEq, List.cons.injEq, Option.some.injEq, ResolvedModule.mk.injEq]
      at hsame
    have hplain : Path.IsPlain "x.ts".toList := by decide
    exact normalize_eq_of_join_dot_eq hplain (Path.parent_ne_nil importer)
      (Path.parent_ne_nil other) hsame.1.1.symm
  · exact (mirrors_of_size_eq_zero fs hmemo importer other).resolveNames hspelled
      fun name _ ↦ MeansSame.of_folder hresolver h name
  · exact normalize_parent_eq hplain hplain' hspelled
  · exact (mirrors_of_size_eq_zero fs hmemo importer other).resolveNames hspelled
      fun name hname ↦ MeansSame.of_isAnchored hresolver (hnames name hname)

/-- A disk with one file. -/
def sampleUtil : FileSystem :=
  ⟨fun path ↦ path = "/p/src/util.ts".toList, fun _ ↦ false, fun _ ↦ none, fun _ ↦ none⟩

/-- A file that is found for other spellings of the file that imports it. The last one has no `/`
before its last part, but is written. -/
theorem resolveNames_spelled_sampleUtil :
    ∃ m, m.file = "/p/src/util.ts".toList ∧
      (resolveNames sampleUtil "/p/./src//main.ts".toList ["./util".toList]
        (ofOptions .empty Table.empty)).1 = .ok [some m] ∧
      (resolveNames sampleUtil "/p\\lib\\..\\src/main.ts".toList ["./util".toList]
        (ofOptions .empty Table.empty)).1 = .ok [some m] ∧
      (resolveNames sampleUtil "/p\\src\\main.ts".toList ["./util".toList]
        ((ofOptions .empty Table.empty).write "/p/src/main.ts".toList [])).1 = .ok [some m] := by
  obtain ⟨hiff, hfolders, -⟩ := resolveNames_spelled_iff "/p/./src//main.ts".toList
    "/p\\lib\\..\\src/main.ts".toList (by decide)
  obtain ⟨-, -, hanchored⟩ := resolveNames_spelled_iff "/p/src/main.ts".toList
    "/p\\src\\main.ts".toList (by decide)
  have hplain : (resolveNames sampleUtil "/p/./src//main.ts".toList ["./util".toList]
      (ofOptions .empty Table.empty)).1 =
        .ok [some ⟨"/p/src/util.ts".toList, .ts, false, none⟩] := by decide
  have hwritten : (resolveNames sampleUtil "/p/src/main.ts".toList ["./util".toList]
      ((ofOptions .empty Table.empty).write "/p/src/main.ts".toList [])).1 =
        .ok [some ⟨"/p/src/util.ts".toList, .ts, false, none⟩] := by decide
  refine ⟨_, rfl, hplain, ?_, ?_⟩
  · rw [← hplain]
    exact hiff.mpr (hfolders (by decide) (by decide)) (.ofOptions .empty) _ _ _ rfl rfl
  · rw [← hwritten]
    refine hanchored (.ofOptions .empty) _ _ _ rfl rfl fun name hname ↦ ?_
    rw [List.mem_singleton.mp hname]
    exact .inl (by decide)

/-- A package that is the file beside whoever imports it. -/
def sampleBeside : Redirects :=
  Table.ofList [("lib".toList, ⟨"./util".toList, ⟨"lib".toList, [], "1.0".toList⟩⟩)]

/-- A backslash before the last part of a file hides the neighbours of the file, also from redirects
that lead to them. -/
theorem resolveNames_spelled_ne :
    normalize "/p/src/main.ts".toList = normalize "/p\\src\\main.ts".toList ∧
    (resolveNames sampleUtil "/p/src/main.ts".toList ["./util".toList, "lib".toList]
      (ofOptions .empty sampleBeside)).1 =
        .ok [some ⟨"/p/src/util.ts".toList, .ts, false, none⟩,
          some ⟨"/p/src/util.ts".toList, .ts, false, some ⟨"lib".toList, [], "1.0".toList⟩⟩] ∧
    (resolveNames sampleUtil "/p\\src\\main.ts".toList ["./util".toList]
      (ofOptions .empty sampleBeside)).1 = .ok [none] ∧
    (resolveNames sampleUtil "/p\\src\\main.ts".toList ["lib".toList]
      (ofOptions .empty sampleBeside)).1 = .error ⟨"lib".toList, "./util".toList⟩ := by
  refine ⟨by decide, ?_, ?_, ?_⟩
  · decide
  · decide
  · decide

end Workspace

end FencedCode
