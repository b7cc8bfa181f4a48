import FencedCode.Proofs.Workspace.Importer
import FencedCode.Proofs.Workspace.Recall
import FencedCode.Proofs.Workspace.Redirect
import Mathlib.Data.List.Forall2

/-!
# Batches of names

What is remembered of the first names of a batch cannot change the answers for the others: each name
has the answer that it has where the batch begins. A batch ends at its first redirect that leads
nowhere, and leaves the memo that the ordinary names in front of it leave by themselves. Asked
again, it ends in the same way and recalls each of these names.
-/

namespace FencedCode

section Except

variable {ε α β : Type} {f : α → Except ε β}

theorem except_mapM_cons (f : α → Except ε β) (a : α) (rest : List α) :
    (a :: rest).mapM f = (f a).bind fun b ↦ (rest.mapM f).map (b :: ·) := by
  rw [List.mapM_cons]
  cases f a with
  | error e => rfl
  | ok b => cases rest.mapM f <;> rfl

theorem except_mapM_eq_ok_iff {as : List α} {bs : List β} :
    as.mapM f = .ok bs ↔ List.Forall₂ (fun a b ↦ f a = .ok b) as bs := by
  induction as generalizing bs with
  | nil =>
    rw [List.mapM_nil, List.forall₂_nil_left_iff]
    exact ⟨fun h ↦ (Except.ok.inj h).symm, fun h ↦ h ▸ rfl⟩
  | cons a rest ih =>
    rw [except_mapM_cons, except_bind_eq_ok_iff, List.forall₂_cons_left_iff]
    constructor
    · rintro ⟨b, hb, hrest⟩
      obtain ⟨others, hothers, rfl⟩ := except_map_eq_ok_iff.mp hrest
      exact ⟨b, others, hb, ih.mp hothers, rfl⟩
    · rintro ⟨b, others, hb, hothers, rfl⟩
      exact ⟨b, hb, except_map_eq_ok_iff.mpr ⟨others, ih.mpr hothers, rfl⟩⟩

/-- The error of a traversal is that of the first item that has one. -/
theorem exists_first_of_mapM_eq_error {as : List α} {e : ε} (h : as.mapM f = .error e) :
    ∃ before a after, as = before ++ a :: after ∧ (∀ b ∈ before, (f b).isOk) ∧
      f a = .error e := by
  induction as with
  | nil =>
    rw [List.mapM_nil] at h
    exact absurd h (by simp [pure, Except.pure])
  | cons a rest ih =>
    rw [except_mapM_cons, except_bind_eq_error_iff] at h
    rcases h with hfirst | ⟨b, hfirst, hrest⟩
    · exact ⟨[], a, rest, rfl, fun _ hmem ↦ absurd hmem List.not_mem_nil, hfirst⟩
    · obtain ⟨before, last, after, rfl, hbefore, hlast⟩ := ih (except_map_eq_error_iff.mp hrest)
      refine ⟨a :: before, last, after, rfl, List.forall_mem_cons.mpr ⟨?_, hbefore⟩, hlast⟩
      rw [hfirst]
      rfl

theorem exists_mapM_eq_ok_iff {as : List α} :
    (∃ bs, as.mapM f = .ok bs) ↔ ∀ a ∈ as, (f a).isOk := by
  constructor
  · rintro ⟨bs, h⟩
    replace h := except_mapM_eq_ok_iff.mp h
    induction h with
    | nil => exact fun _ hmem ↦ absurd hmem List.not_mem_nil
    | cons hfirst _ ih => exact List.forall_mem_cons.mpr ⟨hfirst ▸ rfl, ih⟩
  · intro hall
    rcases h : as.mapM f with e | bs
    · obtain ⟨before, a, after, rfl, -, hlast⟩ := exists_first_of_mapM_eq_error h
      have hok := hall a (by simp)
      rw [hlast] at hok
      exact absurd hok Bool.false_ne_true
    · exact ⟨bs, rfl⟩

end Except

namespace ResolutionMemo

variable {memo : ResolutionMemo} {importer name : Text} {found : Option ResolvedModule}

theorem outcome_fst (memo : ResolutionMemo) (importer name : Text)
    (found : Option ResolvedModule) :
    (memo.outcome importer name found).1 = (memo.kept? importer name).getD found := by
  unfold outcome
  cases memo.kept? importer name <;> rfl

theorem kept?_outcome (memo : ResolutionMemo) (importer name : Text)
    (found : Option ResolvedModule) (other : Text) :
    (memo.outcome importer name found).2.kept? importer other =
      (memo.kept? importer other).or (if name = other then some found else none) := by
  unfold outcome
  cases hkept : memo.kept? importer name with
  | some kept =>
    show memo.kept? importer other = _
    split
    · rename_i hname
      rw [← hname, hkept, Option.some_or]
    · rw [Option.or_none]
  | none =>
    show (memo.keep importer name found).kept? importer other = _
    rw [kept?_keep_importer]
    split
    · rename_i hname
      rw [← hname, hkept, Option.none_or]
    · rw [Option.or_none]

theorem outcome_snd_of_isSome (h : (memo.kept? importer name).isSome)
    (found : Option ResolvedModule) : (memo.outcome importer name found).2 = memo.countHit := by
  obtain ⟨kept, hkept⟩ := Option.isSome_iff_exists.mp h
  rw [outcome, hkept]

/-- The memo after outcomes have been asked for in a row, each of which is found as `found` says
when it is not kept. -/
def recallAll (importer : Text) (found : Text → Option ResolvedModule) (names : List Text)
    (memo : ResolutionMemo) : ResolutionMemo :=
  names.foldl (fun memo name ↦ (memo.outcome importer name (found name)).2) memo

theorem recallAll_cons (importer : Text) (found : Text → Option ResolvedModule) (first : Text)
    (rest : List Text) (memo : ResolutionMemo) : recallAll importer found (first :: rest) memo =
      recallAll importer found rest (memo.outcome importer first (found first)).2 := rfl

theorem recallAll_append (importer : Text) (found : Text → Option ResolvedModule)
    (names others : List Text) (memo : ResolutionMemo) :
    recallAll importer found (names ++ others) memo =
      recallAll importer found others (recallAll importer found names memo) := List.foldl_append

theorem isSome_kept?_recallAll_of_isSome {found : Text → Option ResolvedModule}
    (names : List Text) (h : (memo.kept? importer name).isSome) :
    ((recallAll importer found names memo).kept? importer name).isSome := by
  induction names generalizing memo with
  | nil => exact h
  | cons first rest ih =>
    rw [recallAll_cons]
    apply ih
    rw [kept?_outcome, Option.isSome_or, h, Bool.true_or]

theorem isSome_kept?_recallAll {found : Text → Option ResolvedModule} {names : List Text}
    (h : name ∈ names) (memo : ResolutionMemo) :
    ((recallAll importer found names memo).kept? importer name).isSome := by
  induction names generalizing memo with
  | nil => exact absurd h List.not_mem_nil
  | cons first rest ih =>
    rw [recallAll_cons]
    rcases List.mem_cons.mp h with rfl | hrest
    · apply isSome_kept?_recallAll_of_isSome
      rw [kept?_outcome, if_pos rfl, Option.isSome_or, Option.isSome_some, Bool.or_true]
    · exact ih hrest _

/-- Names that are kept are hits, one for each time that they are asked for. -/
theorem recallAll_of_isSome {found : Text → Option ResolvedModule} {names : List Text}
    (h : ∀ name ∈ names, (memo.kept? importer name).isSome) :
    recallAll importer found names memo = { memo with hits := memo.hits + names.length } := by
  induction names generalizing memo with
  | nil => rfl
  | cons first rest ih =>
    obtain ⟨hfirst, hrest⟩ := List.forall_mem_cons.mp h
    have hnext : ∀ name ∈ rest, (memo.countHit.kept? importer name).isSome := hrest
    rw [recallAll_cons, outcome_snd_of_isSome hfirst, ih hnext, countHit, List.length_cons]
    simp only [Nat.add_assoc, Nat.add_comm 1]

end ResolutionMemo

namespace Workspace

variable {fs : FileSystem} {w w' : Workspace} {importer name : Text}

/-! ## One name -/

/-- What the resolver finds for a name. -/
def foundFor (fs : FileSystem) (w : Workspace) (importer name : Text) : Option ResolvedModule :=
  (Request.mk fs w importer name).found

/-- The names that are asked for through the memo. -/
def ordinary (fs : FileSystem) (w : Workspace) (importer : Text) (names : List Text) : List Text :=
  names.filter fun name ↦ decide (Request.mk fs w importer name).IsOrdinary

/-- The file `importer` has had names resolved from `w` on. The files are those of `w`, and what is
kept for a name is what is kept or found for it in `w`. -/
structure Follows (fs : FileSystem) (importer : Text) (w w' : Workspace) : Prop where
  agrees : w.Agrees w'
  shown : ShowsSame fs w w'
  kept : ∀ name, (w'.memo.kept? importer name).getD (foundFor fs w importer name) =
    (w.memo.kept? importer name).getD (foundFor fs w importer name)

theorem Follows.refl (fs : FileSystem) (importer : Text) (w : Workspace) :
    Follows fs importer w w :=
  ⟨Agrees.refl w, ShowsSame.refl fs w, fun _ ↦ rfl⟩

theorem resolveName_of_isOrdinary (h : (Request.mk fs w importer name).IsOrdinary) :
    (resolveName fs importer name w).1 =
        .ok (w.memo.outcome importer name (foundFor fs w importer name)).1 ∧
      (resolveName fs importer name w).2.memo =
        (w.memo.outcome importer name (foundFor fs w importer name)).2 := by
  cases hkept : w.memo.kept? importer name with
  | some kept =>
    have hname : resolveName fs importer name w =
        (.ok kept, { w with memo := w.memo.countHit }) :=
      Request.resolveName_of_kept h hkept fs w.resolver
    rw [hname, ResolutionMemo.outcome, hkept]
    exact ⟨rfl, rfl⟩
  | none =>
    rw [ResolutionMemo.outcome, hkept]
    exact Request.resolveName_of_new h hkept

namespace Follows

theorem foundFor_eq (h : Follows fs importer w w') (name : Text) :
    foundFor fs w' importer name = foundFor fs w importer name := by
  show (runLookup fs (w'.resolver name importer) w').1 = _
  rw [h.agrees.resolver, h.shown.runLookup_eq]
  rfl

theorem isOrdinary_iff (h : Follows fs importer w w') :
    (Request.mk fs w' importer name).IsOrdinary ↔ (Request.mk fs w importer name).IsOrdinary := by
  unfold Request.IsOrdinary isVirtual
  rw [h.agrees.redirects, h.agrees.overlay]

/-- A name has the answer that it has in the workspace that is followed. -/
theorem answer_eq (h : Follows fs importer w w') (name : Text) :
    (resolveName fs importer name w').1 = (resolveName fs importer name w).1 := by
  cases hredirect : w.redirects.get? name with
  | some redirect =>
    have hredirect' : w'.redirects.get? name = some redirect := h.agrees.redirects ▸ hredirect
    rw [resolveName_fst_of_redirect hredirect, resolveName_fst_of_redirect hredirect',
      h.shown.redirectOutcome_eq h.agrees.resolver]
  | none =>
    have hredirect' : w'.redirects.get? name = none := h.agrees.redirects ▸ hredirect
    by_cases hroute : Path.isRelative name ∧ w.isVirtual importer
    · have hvirtual : w'.isVirtual importer := by
        rw [isVirtual, h.agrees.overlay]
        exact hroute.2
      rw [resolveName_of_relative hredirect hroute.1 hroute.2,
        resolveName_of_relative hredirect' hroute.1 hvirtual, h.shown.runLookup_eq]
    · have hordinary : (Request.mk fs w importer name).IsOrdinary := ⟨hredirect, hroute⟩
      rw [(resolveName_of_isOrdinary hordinary).1,
        (resolveName_of_isOrdinary (h.isOrdinary_iff.mpr hordinary)).1,
        ResolutionMemo.outcome_fst, ResolutionMemo.outcome_fst, h.foundFor_eq, h.kept]

/-- Only an ordinary name changes the memo. -/
theorem memo_resolveName (h : Follows fs importer w w') (name : Text) :
    (resolveName fs importer name w').2.memo =
      ResolutionMemo.recallAll importer (foundFor fs w importer) (ordinary fs w importer [name])
        w'.memo := by
  by_cases hordinary : (Request.mk fs w importer name).IsOrdinary
  · rw [ordinary, List.filter_singleton, decide_eq_true hordinary, cond_true,
      (resolveName_of_isOrdinary (h.isOrdinary_iff.mpr hordinary)).2, h.foundFor_eq]
    rfl
  · rw [ordinary, List.filter_singleton, decide_eq_false hordinary, cond_false]
    exact Request.memo_next_of_not_isOrdinary (mt h.isOrdinary_iff.mp hordinary)

theorem after_resolveName (h : Follows fs importer w w') (name : Text) :
    Follows fs importer w (resolveName fs importer name w').2 where
  agrees := h.agrees.trans (onlyAsks_resolveName fs importer name w')
  shown := h.shown.trans (showsSame_resolveName fs importer name w')
  kept := by
    intro other
    rw [h.memo_resolveName]
    by_cases hordinary : (Request.mk fs w importer name).IsOrdinary
    · rw [ordinary, List.filter_singleton, decide_eq_true hordinary, cond_true, ← h.kept]
      show ((w'.memo.outcome importer name _).2.kept? importer other).getD _ = _
      rw [ResolutionMemo.kept?_outcome]
      cases w'.memo.kept? importer other with
      | some kept => rw [Option.some_or]
      | none =>
        rw [Option.none_or]
        split
        · rename_i hname
          rw [hname]
          rfl
        · rfl
    · rw [ordinary, List.filter_singleton, decide_eq_false hordinary, cond_false, ← h.kept]
      rfl

end Follows

theorem ordinary_cons (fs : FileSystem) (w : Workspace) (importer name : Text)
    (names : List Text) : ordinary fs w importer (name :: names) =
      ordinary fs w importer [name] ++ ordinary fs w importer names := by
  rw [ordinary, ordinary, ordinary, ← List.filter_append, List.singleton_append]

/-! ## Batches -/

/-- The names of a batch in front of the first one that fails. -/
def namesTried (fs : FileSystem) (w : Workspace) (importer : Text) (names : List Text) :
    List Text := names.takeWhile fun name ↦ (resolveName fs importer name w).1.isOk

/-- A redirect that leads nowhere is not ordinary. -/
theorem ordinary_singleton_of_error {e : MissingRedirect}
    (h : (resolveName fs importer name w).1 = .error e) : ordinary fs w importer [name] = [] := by
  have hnot : ¬ (Request.mk fs w importer name).IsOrdinary := by
    intro hordinary
    rw [(resolveName_of_isOrdinary hordinary).1] at h
    exact absurd h (by simp)
  rw [ordinary, List.filter_singleton, decide_eq_false hnot, cond_false]

/-- A batch has the answers that its names have in the workspace that is followed, and changes the
memo by the ordinary names among those that it tries. -/
theorem Follows.batch (h : Follows fs importer w w') (names : List Text) :
    (resolveNames fs importer names w').1 =
        names.mapM (fun name ↦ (resolveName fs importer name w).1) ∧
      (resolveNames fs importer names w').2.memo =
        ResolutionMemo.recallAll importer (foundFor fs w importer)
          (ordinary fs w importer (namesTried fs w importer names)) w'.memo ∧
      Follows fs importer w (resolveNames fs importer names w').2 := by
  induction names generalizing w' with
  | nil => exact ⟨rfl, rfl, h⟩
  | cons name rest ih =>
    have hanswer := h.answer_eq name
    have hmemo := h.memo_resolveName name
    have hnext := h.after_resolveName name
    rw [except_mapM_cons, namesTried, ← hanswer]
    rcases hname : resolveName fs importer name w' with ⟨e | found, w''⟩
    · rw [hname] at hanswer hmemo hnext
      rw [ordinary_singleton_of_error hanswer.symm] at hmemo
      rw [resolveNames_cons_of_error hname, List.takeWhile_cons, ← hanswer]
      exact ⟨rfl, hmemo, hnext⟩
    · rw [hname] at hanswer hmemo hnext
      obtain ⟨hanswers, hrest, hfollows⟩ := ih hnext
      rw [resolveNames_cons_of_ok hname, List.takeWhile_cons, ← hanswer, ← namesTried]
      refine ⟨?_, ?_, hfollows⟩
      · rw [hanswers]
        rfl
      · rw [hrest, hmemo, ← ResolutionMemo.recallAll_append, ← ordinary_cons]
        rfl

/-! ## How a batch ends -/

/-- The name is redirected, and nothing is found for its target. -/
structure LeadsNowhere (fs : FileSystem) (w : Workspace) (importer name : Text)
    (redirect : Redirect) : Prop where
  redirected : w.redirects.get? name = some redirect
  missing : (w.view fs).eval (w.resolver redirect.target importer) = none

theorem resolveName_eq_error_iff {e : MissingRedirect} :
    (resolveName fs importer name w).1 = .error e ↔
      ∃ redirect, LeadsNowhere fs w importer name redirect ∧ e = ⟨name, redirect.target⟩ := by
  constructor
  · intro h
    obtain ⟨redirect, hredirect, houtcome⟩ := exists_redirect_of_resolveName_error h
    obtain ⟨hmissing, he⟩ := redirectOutcome_eq_error_iff.mp houtcome
    exact ⟨redirect, ⟨hredirect, hmissing⟩, he⟩
  · rintro ⟨redirect, hnowhere, he⟩
    rw [resolveName_fst_of_redirect hnowhere.redirected, except_map_eq_error_iff,
      redirectOutcome_eq_error_iff]
    exact ⟨hnowhere.missing, he⟩

theorem isOk_resolveName_iff : (resolveName fs importer name w).1.isOk ↔
    ∀ redirect, ¬ LeadsNowhere fs w importer name redirect := by
  rcases hname : (resolveName fs importer name w).1 with e | found
  · obtain ⟨redirect, hnowhere, -⟩ := resolveName_eq_error_iff.mp hname
    exact iff_of_false Bool.false_ne_true fun hall ↦ hall redirect hnowhere
  · refine iff_of_true rfl fun redirect hnowhere ↦ ?_
    have herror := resolveName_eq_error_iff.mpr ⟨redirect, hnowhere, rfl⟩
    rw [hname] at herror
    exact absurd herror (by simp)

theorem namesTried_append_cons {before after : List Text}
    (hbefore : ∀ other ∈ before, (resolveName fs importer other w).1.isOk) {e : MissingRedirect}
    (hname : (resolveName fs importer name w).1 = .error e) :
    namesTried fs w importer (before ++ name :: after) = before := by
  rw [namesTried, List.takeWhile_append_of_pos hbefore, List.takeWhile_cons_of_neg,
    List.append_nil]
  rw [hname]
  exact Bool.false_ne_true

/-- Ordinary names never fail. -/
theorem namesTried_ordinary (fs : FileSystem) (w : Workspace) (importer : Text)
    (names : List Text) : namesTried fs w importer (ordinary fs w importer names) =
      ordinary fs w importer names := by
  rw [namesTried, List.takeWhile_eq_self_iff]
  intro name hname
  have hordinary := of_decide_eq_true (List.mem_filter.mp hname).2
  rw [(resolveName_of_isOrdinary hordinary).1]
  rfl

theorem ordinary_ordinary (fs : FileSystem) (w : Workspace) (importer : Text)
    (names : List Text) : ordinary fs w importer (ordinary fs w importer names) =
      ordinary fs w importer names := by
  rw [ordinary, ordinary, List.filter_filter]
  simp only [Bool.and_self]

/-- A batch succeeds exactly when all of its redirects lead somewhere, and then has one answer for
each name, that of the name by itself. Otherwise it fails with the first redirect that leads
nowhere. It leaves the memo that a batch of just the ordinary names in front of that one leaves, and
asked again it fails with the same redirect and has a hit for each of these names. -/
theorem resolveNames_ends (fs : FileSystem) (importer : Text) (names : List Text)
    (w : Workspace) :
    ((∃ founds, (resolveNames fs importer names w).1 = .ok founds) ↔
      ∀ name ∈ names, ∀ redirect, ¬ LeadsNowhere fs w importer name redirect) ∧
    (∀ founds, (resolveNames fs importer names w).1 = .ok founds →
      List.Forall₂ (fun name found ↦ (resolveName fs importer name w).1 = .ok found)
        names founds) ∧
    ∀ e left, resolveNames fs importer names w = (.error e, left) →
      ∃ before name after redirect, names = before ++ name :: after ∧
        (∀ other ∈ before, ∀ redirect, ¬ LeadsNowhere fs w importer other redirect) ∧
        LeadsNowhere fs w importer name redirect ∧ e = ⟨name, redirect.target⟩ ∧
        left.memo =
          (resolveNames fs importer (ordinary fs w importer before) w).2.memo ∧
        (resolveNames fs importer names left).1 = .error e ∧
        (resolveNames fs importer names left).2.memo =
          { left.memo with
            hits := left.memo.hits + (ordinary fs w importer before).length } := by
  obtain ⟨hanswers, hmemo, hfollows⟩ := (Follows.refl fs importer w).batch names
  refine ⟨?_, ?_, ?_⟩
  · rw [hanswers, exists_mapM_eq_ok_iff]
    simp only [isOk_resolveName_iff]
  · intro founds hok
    rwa [hanswers, except_mapM_eq_ok_iff] at hok
  · intro e left hends
    rw [hends] at hanswers hmemo hfollows
    obtain ⟨before, name, after, rfl, hbefore, hname⟩ :=
      exists_first_of_mapM_eq_error hanswers.symm
    obtain ⟨redirect, hnowhere, he⟩ := resolveName_eq_error_iff.mp hname
    rw [namesTried_append_cons hbefore hname] at hmemo
    obtain ⟨hagain, hrecalled, -⟩ := hfollows.batch (before ++ name :: after)
    obtain ⟨-, halone, -⟩ :=
      (Follows.refl fs importer w).batch (ordinary fs w importer before)
    rw [namesTried_ordinary, ordinary_ordinary] at halone
    rw [namesTried_append_cons hbefore hname] at hrecalled
    have hkept : ∀ other ∈ ordinary fs w importer before,
        (left.memo.kept? importer other).isSome := by
      intro other hother
      rw [hmemo]
      exact ResolutionMemo.isSome_kept?_recallAll hother w.memo
    exact ⟨before, name, after, redirect, rfl,
      fun other hother ↦ isOk_resolveName_iff.mp (hbefore other hother), hnowhere, he,
      hmemo.trans halone.symm, hagain.trans hanswers.symm,
      hrecalled.trans (ResolutionMemo.recallAll_of_isSome hkept)⟩

/-- The redirect leads nowhere, and the name behind it is not asked for. -/
example :
    let w := ofOptions .empty (Table.ofList [("lib".toList, sampleRedirect)])
    let batch := resolveNames .empty "/x.ts".toList
      ["a".toList, "a".toList, "lib".toList, "b".toList]
    (batch w).1 = .error ⟨"lib".toList, "/ext/lib".toList⟩ ∧
      ((batch w).2.memo.hits, (batch w).2.memo.misses) = (1, 1) ∧
      ((batch (batch w).2).2.memo.hits, (batch (batch w).2).2.memo.misses) = (3, 1) := by
  decide

end Workspace

end FencedCode
