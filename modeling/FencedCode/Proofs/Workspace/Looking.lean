import FencedCode.Proofs.Compiler.Answer
import FencedCode.Proofs.Module.View

/-!
# What a lookup sees

A lookup sees the files that a workspace shows and nothing else of it: neither what is remembered
of other resolutions nor the options can make a difference. It leaves the memo alone, and reading
files does not change the files that are shown. Each route that a module name takes is one equation.
-/

namespace FencedCode.Workspace

/-- The workspaces show the same files on the disk. -/
structure ShowsSame (fs : FileSystem) (w w' : Workspace) : Prop where
  overlay : w'.overlay = w.overlay
  scripts : w'.scripts = w.scripts
  texts : w'.text? fs = w.text? fs

variable {fs : FileSystem} {w w' w'' : Workspace} {α : Type}

theorem ShowsSame.refl (fs : FileSystem) (w : Workspace) : ShowsSame fs w w := ⟨rfl, rfl, rfl⟩

theorem ShowsSame.symm (h : ShowsSame fs w w') : ShowsSame fs w' w :=
  ⟨h.overlay.symm, h.scripts.symm, h.texts.symm⟩

theorem ShowsSame.trans (h : ShowsSame fs w w') (h' : ShowsSame fs w' w'') :
    ShowsSame fs w w'' where
  overlay := h'.overlay.trans h.overlay
  scripts := h'.scripts.trans h.scripts
  texts := h'.texts.trans h.texts

/-- The shown files are those of the overlay, the request and the texts read so far. -/
theorem showsSame_of_eq (hoverlay : w'.overlay = w.overlay) (hscripts : w'.scripts = w.scripts)
    (hreads : w'.reads = w.reads) : ShowsSame fs w w' := by
  refine ⟨hoverlay, hscripts, funext fun path ↦ ?_⟩
  unfold text? read
  rw [hoverlay, hreads]
  cases w.overlay.get? path <;> rfl

theorem showsSame_read (fs : FileSystem) (path : Text) (w : Workspace) :
    ShowsSame fs w (read fs path w).2 where
  overlay := (onlyAsks_read fs path w).overlay
  scripts := (onlyAsks_read fs path w).scripts
  texts := text?_after_read fs path w

theorem lastsWhileAsking_showsSame (fs : FileSystem) : LastsWhileAsking fs (ShowsSame fs) where
  refl := ShowsSame.refl fs
  trans := ShowsSame.trans
  read := showsSame_read fs
  memo _ _ := showsSame_of_eq rfl rfl rfl

theorem ShowsSame.lookUp_eq (h : ShowsSame fs w w') (request : FileRequest) :
    (lookUp fs request w').1 = (lookUp fs request w).1 := by
  cases request with
  | fileExists path =>
    show w'.fileExists fs path = w.fileExists fs path
    rw [fileExists, isVirtual, h.overlay, fileExists, isVirtual]
  | folderExists path =>
    show w'.folderExists fs path = w.folderExists fs path
    rw [folderExists, h.scripts, folderExists]
  | read path => exact congrFun h.texts path

/-- The files as the workspace shows them. -/
def view (fs : FileSystem) (w : Workspace) : FileView :=
  ⟨w.fileExists fs, w.folderExists fs, w.text? fs⟩

theorem lookUp_fst (fs : FileSystem) (request : FileRequest) (w : Workspace) :
    (lookUp fs request w).1 = (w.view fs).answer request := by
  cases request <;> rfl

theorem ShowsSame.view_eq (h : ShowsSame fs w w') : w'.view fs = w.view fs := by
  have hfile : w'.fileExists fs = w.fileExists fs :=
    funext fun path ↦ h.lookUp_eq (.fileExists path)
  have hfolder : w'.folderExists fs = w.folderExists fs :=
    funext fun path ↦ h.lookUp_eq (.folderExists path)
  rw [view, hfile, hfolder, h.texts, view]

/-- A lookup comes to what the shown files make of it. -/
theorem runLookup_fst (fs : FileSystem) (lookup : Lookup α) (w : Workspace) :
    (runLookup fs lookup w).1 = (w.view fs).eval lookup := by
  induction lookup generalizing w with
  | done a => rfl
  | ask request next ih =>
    show (runLookup fs (next (lookUp fs request w).1) (lookUp fs request w).2).1 =
      (w.view fs).eval (next ((w.view fs).answer request))
    rw [ih, lookUp_fst, ((lastsWhileAsking_showsSame fs).lookUp request w).view_eq]

/-- A lookup comes to the same end wherever the same files are shown. -/
theorem ShowsSame.runLookup_eq (h : ShowsSame fs w w') (lookup : Lookup α) :
    (runLookup fs lookup w').1 = (runLookup fs lookup w).1 := by
  rw [runLookup_fst, runLookup_fst, h.view_eq]

theorem memo_lookUp (fs : FileSystem) (request : FileRequest) (w : Workspace) :
    (lookUp fs request w).2.memo = w.memo := by
  cases request with
  | fileExists path => rfl
  | folderExists path => rfl
  | read path =>
    show (read fs path w).2.memo = w.memo
    unfold read
    split <;> rfl

theorem memo_runLookup (fs : FileSystem) (lookup : Lookup α) (w : Workspace) :
    (runLookup fs lookup w).2.memo = w.memo := by
  induction lookup generalizing w with
  | done a => rfl
  | ask request next ih => exact (ih _ _).trans (memo_lookUp fs request w)

/-! ## The routes of a name -/

variable {importer name : Text}

theorem resolveName_of_redirect {redirect : Redirect} (h : w.redirects.get? name = some redirect) :
    resolveName fs importer name w =
      (redirected name redirect (runLookup fs (w.resolver redirect.target importer) w).1,
        (runLookup fs (w.resolver redirect.target importer) w).2) := by
  simp only [resolveName, bind, StateT.bind, get, getThe, MonadStateOf.get, StateT.get, pure, h]
  rfl

theorem resolveName_of_relative (h : w.redirects.get? name = none)
    (hrelative : Path.isRelative name) (hvirtual : w.isVirtual importer) :
    resolveName fs importer name w =
      (.ok ((runLookup fs (Lookup.fileOrFolder (relativeTarget importer name)) w).1.bind
        ResolvedModule.ofFile?),
        (runLookup fs (Lookup.fileOrFolder (relativeTarget importer name)) w).2) := by
  simp only [resolveName, bind, StateT.bind, get, getThe, MonadStateOf.get, StateT.get, pure, h,
    hrelative, hvirtual, Bool.and_self, if_true]
  rfl

theorem resolveName_of_ordinary (h : w.redirects.get? name = none)
    (hroute : ¬ (Path.isRelative name ∧ w.isVirtual importer)) :
    resolveName fs importer name w =
      (.ok (resolveOrdinary fs importer name w).1, (resolveOrdinary fs importer name w).2) := by
  have hroute : (Path.isRelative name && w.isVirtual importer) = false := by
    simpa using hroute
  simp only [resolveName, bind, StateT.bind, get, getThe, MonadStateOf.get, StateT.get, pure, h,
    hroute, Bool.false_eq_true, if_false]
  rfl

theorem resolveOrdinary_of_kept {kept : Option ResolvedModule}
    (h : w.memo.kept? importer name = some kept) :
    resolveOrdinary fs importer name w = (kept, { w with memo := w.memo.countHit }) := by
  simp only [resolveOrdinary, bind, StateT.bind, get, getThe, MonadStateOf.get, StateT.get, pure, h]
  rfl

theorem resolveOrdinary_of_new (h : w.memo.kept? importer name = none) :
    resolveOrdinary fs importer name w =
      ((runLookup fs (w.resolver name importer) w).1,
        { (runLookup fs (w.resolver name importer) w).2 with
          memo := w.memo.keep importer name (runLookup fs (w.resolver name importer) w).1 }) := by
  simp only [resolveOrdinary, bind, StateT.bind, get, getThe, MonadStateOf.get, StateT.get, pure, h]
  rw [← memo_runLookup fs (w.resolver name importer) w]
  rfl

/-! ## Batches -/

variable {rest : List Text}

theorem resolveNames_cons_of_error {e : MissingRedirect}
    (h : resolveName fs importer name w = (.error e, w')) :
    resolveNames fs importer (name :: rest) w = (.error e, w') := by
  simp only [resolveNames, bind, StateT.bind, h]
  rfl

theorem resolveNames_cons_of_ok {found : Option ResolvedModule}
    (h : resolveName fs importer name w = (.ok found, w')) :
    resolveNames fs importer (name :: rest) w =
      ((resolveNames fs importer rest w').1.map (found :: ·),
        (resolveNames fs importer rest w').2) := by
  simp only [resolveNames, bind, StateT.bind, h]
  rcases resolveNames fs importer rest w' with ⟨_ | others, w''⟩
  · rfl
  · rfl

/-- The answers of a batch are those of its first name and of the rest, when neither fails. -/
theorem resolveNames_cons_fst (fs : FileSystem) (importer name : Text) (rest : List Text)
    (w : Workspace) :
    (resolveNames fs importer (name :: rest) w).1 =
      (resolveName fs importer name w).1.bind fun found ↦
        (resolveNames fs importer rest (resolveName fs importer name w).2).1.map (found :: ·) := by
  rcases hfirst : resolveName fs importer name w with ⟨e | found, w'⟩
  · rw [resolveNames_cons_of_error hfirst]
    rfl
  · rw [resolveNames_cons_of_ok hfirst]
    rfl

end FencedCode.Workspace
