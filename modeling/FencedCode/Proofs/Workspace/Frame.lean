import FencedCode.Checker.Basic

/-!
# What asking leaves alone

Whoever asks a workspace may make it remember more, in its memo and in its cache of reads. Nothing
else changes: the overlay, the files of the request, the options, the redirects and the resolver
stay as they are, however many questions are asked.
-/

namespace FencedCode

namespace Workspace

/-- The workspaces differ at most in what they remember. -/
structure Agrees (w w' : Workspace) : Prop where
  options : w'.options = w.options
  resolver : w'.resolver = w.resolver
  redirects : w'.redirects = w.redirects
  overlay : w'.overlay = w.overlay
  scripts : w'.scripts = w.scripts

theorem Agrees.refl (w : Workspace) : w.Agrees w := ⟨rfl, rfl, rfl, rfl, rfl⟩

theorem Agrees.symm {w w' : Workspace} (h : w.Agrees w') : w'.Agrees w :=
  ⟨h.options.symm, h.resolver.symm, h.redirects.symm, h.overlay.symm, h.scripts.symm⟩

theorem Agrees.trans {w w' w'' : Workspace} (h : w.Agrees w') (h' : w'.Agrees w'') :
    w.Agrees w'' where
  options := h'.options.trans h.options
  resolver := h'.resolver.trans h.resolver
  redirects := h'.redirects.trans h.redirects
  overlay := h'.overlay.trans h.overlay
  scripts := h'.scripts.trans h.scripts

/-- A relation that lasts while questions are asked: from each workspace to itself, from one to the
next, and from each to the one in which a file has been read or the memo has changed. -/
structure LastsWhileAsking (fs : FileSystem) (R : Workspace → Workspace → Prop) : Prop where
  refl : ∀ w, R w w
  trans : ∀ {w w' w''}, R w w' → R w' w'' → R w w''
  read : ∀ path w, R w (read fs path w).2
  memo : ∀ memo w, R w { w with memo }

variable {α β : Type}

/-- The relation leads from wherever the step begins to where it ends. -/
def Along (R : Workspace → Workspace → Prop) (action : StateM Workspace α) : Prop :=
  ∀ w, R w (action w).2

namespace LastsWhileAsking

variable {fs : FileSystem} {R : Workspace → Workspace → Prop}

theorem pure (h : LastsWhileAsking fs R) (a : α) : Along R (Pure.pure a : StateM Workspace α) :=
  h.refl

theorem get (h : LastsWhileAsking fs R) :
    Along R (MonadState.get : StateM Workspace Workspace) := h.refl

theorem bind (h : LastsWhileAsking fs R) {action : StateM Workspace α}
    {next : α → StateM Workspace β} (haction : Along R action) (hnext : ∀ a, Along R (next a)) :
    Along R (action >>= next) := fun w ↦ h.trans (haction w) (hnext _ _)

theorem modify_memo (h : LastsWhileAsking fs R) (f : ResolutionMemo → ResolutionMemo) :
    Along R (modify fun w : Workspace ↦ { w with memo := f w.memo }) := fun w ↦ h.memo (f w.memo) w

/-- A relation lasts through a dialogue when it lasts through each of the answers. -/
theorem run (h : LastsWhileAsking fs R) {Request : Type} {Answer : Request → Type}
    {answer : (r : Request) → StateM Workspace (Answer r)} (hanswer : ∀ r, Along R (answer r))
    (x : Dialogue Answer α) : Along R (Dialogue.run answer x) := by
  induction x with
  | done a => exact h.pure a
  | ask r next ih => exact h.bind (hanswer r) ih

theorem lookUp (h : LastsWhileAsking fs R) (request : FileRequest) :
    Along R (Workspace.lookUp fs request) := by
  cases request with
  | fileExists path => exact h.bind h.get fun _ ↦ h.pure _
  | folderExists path => exact h.bind h.get fun _ ↦ h.pure _
  | read path => exact h.read path

theorem runLookup (h : LastsWhileAsking fs R) (lookup : Lookup α) :
    Along R (Workspace.runLookup fs lookup) := h.run h.lookUp lookup

theorem resolveOrdinary (h : LastsWhileAsking fs R) (importer name : Text) :
    Along R (Workspace.resolveOrdinary fs importer name) := by
  apply h.bind h.get
  intro w
  split
  · exact h.bind (h.modify_memo _) fun _ ↦ h.pure _
  · apply h.bind h.get
    intro w
    apply h.bind (h.runLookup _)
    intro found
    exact h.bind (h.modify_memo (·.keep importer name found)) fun _ ↦ h.pure _

theorem resolveName (h : LastsWhileAsking fs R) (importer name : Text) :
    Along R (Workspace.resolveName fs importer name) := by
  apply h.bind h.get
  intro w
  split
  · exact h.bind (h.runLookup _) fun _ ↦ h.pure _
  · split
    · exact h.bind (h.runLookup _) fun _ ↦ h.pure _
    · exact h.bind (h.resolveOrdinary importer name) fun _ ↦ h.pure _

theorem resolveNames (h : LastsWhileAsking fs R) (importer : Text) (names : List Text) :
    Along R (Workspace.resolveNames fs importer names) := by
  induction names with
  | nil => exact h.pure _
  | cons name rest ih =>
    apply h.bind (h.resolveName importer name)
    intro found
    split
    · exact h.pure _
    · apply h.bind ih
      intro others
      split
      · exact h.pure _
      · exact h.pure _

/-- The relation lasts through every question of a checker. -/
theorem answer (h : LastsWhileAsking fs R) (inquiry : Inquiry) :
    Along R (Workspace.answer fs inquiry) := by
  cases inquiry with
  | options => exact h.bind h.get fun _ ↦ h.pure _
  | scripts => exact h.bind h.get fun _ ↦ h.pure _
  | version path => exact h.bind h.get fun _ ↦ h.pure _
  | file request => exact h.lookUp request
  | resolve importer names => exact h.resolveNames importer names

end LastsWhileAsking

/-! ## Steps that only ask -/

/-- The step changes nothing but what is remembered. -/
def OnlyAsks (action : StateM Workspace α) : Prop := ∀ w, Agrees w (action w).2

theorem OnlyAsks.pure (a : α) : OnlyAsks (Pure.pure a : StateM Workspace α) := Agrees.refl

theorem OnlyAsks.bind {action : StateM Workspace α} {next : α → StateM Workspace β}
    (haction : OnlyAsks action) (hnext : ∀ a, OnlyAsks (next a)) :
    OnlyAsks (action >>= next) := fun w ↦ (haction w).trans (hnext _ _)

theorem onlyAsks_read (fs : FileSystem) (path : Text) : OnlyAsks (read fs path) := by
  intro w
  unfold read
  split
  · exact Agrees.refl w
  · exact ⟨rfl, rfl, rfl, rfl, rfl⟩

theorem lastsWhileAsking_agrees (fs : FileSystem) : LastsWhileAsking fs Agrees where
  refl := Agrees.refl
  trans := Agrees.trans
  read := onlyAsks_read fs
  memo _ _ := ⟨rfl, rfl, rfl, rfl, rfl⟩

theorem onlyAsks_lookUp (fs : FileSystem) (request : FileRequest) :
    OnlyAsks (lookUp fs request) := (lastsWhileAsking_agrees fs).lookUp request

theorem onlyAsks_resolveName (fs : FileSystem) (importer name : Text) :
    OnlyAsks (resolveName fs importer name) :=
  (lastsWhileAsking_agrees fs).resolveName importer name

/-- No question of a checker changes more than what is remembered. -/
theorem onlyAsks_answer (fs : FileSystem) (inquiry : Inquiry) : OnlyAsks (answer fs inquiry) :=
  (lastsWhileAsking_agrees fs).answer inquiry

end Workspace

end FencedCode
