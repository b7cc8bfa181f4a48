import FencedCode.Proofs.Compiler.Step

/-!
# Calls of a checker, step by step

A call takes a compiler through the parts of the call, one after another. The workspace answers
what is asked, and nothing but a change that the checker makes to its own state changes that state.
-/

namespace FencedCode.Compiler

variable {σ α β : Type} (fs : FileSystem)

theorem call_bind (action : CheckM σ α) (next : α → CheckM σ β) :
    call fs (action >>= next) = call fs action >>= fun a ↦ call fs (next a) := by
  funext c
  show call fs (action >>= next) c = run (call fs action >>= fun a ↦ call fs (next a)) c
  have hrun : Dialogue.run (Workspace.answer fs) ((action >>= next) c.state) c.workspace =
      Dialogue.run (Workspace.answer fs)
        (ExceptT.bindCont next
          (Dialogue.run (Workspace.answer fs) (action c.state) c.workspace).1.1
          (Dialogue.run (Workspace.answer fs) (action c.state) c.workspace).1.2)
        (Dialogue.run (Workspace.answer fs) (action c.state) c.workspace).2 := by
    show Dialogue.run (Workspace.answer fs)
      (action c.state >>= fun result ↦ ExceptT.bindCont next result.1 result.2) c.workspace = _
    rw [Dialogue.run_bind]
    rfl
  rw [run_bind]
  unfold run call
  simp only [hrun]
  rcases Dialogue.run (Workspace.answer fs) (action c.state) c.workspace with ⟨⟨_ | _, _⟩, _⟩
  · rfl
  · rfl

theorem run_call_pure (a : α) (c : Compiler σ) :
    run (call fs (pure a : CheckM σ α)) c = (.ok a, c) := rfl

theorem run_call_get (c : Compiler σ) :
    run (call fs (get : CheckM σ σ)) c = (.ok c.state, c) := rfl

theorem run_call_modify (f : σ → σ) (c : Compiler σ) :
    run (call fs (modify f : CheckM σ PUnit)) c = (.ok ⟨⟩, { c with state := f c.state }) := rfl

theorem run_call_options (c : Compiler σ) :
    run (call fs (CheckM.options : CheckM σ CompilerOptions)) c = (.ok c.workspace.options, c) :=
  rfl

theorem run_call_version (path : Text) (c : Compiler σ) :
    run (call fs (CheckM.version path : CheckM σ Text)) c =
      (.ok (c.workspace.version fs path), c) := rfl

theorem run_call_read (path : Text) (c : Compiler σ) :
    run (call fs (CheckM.read path : CheckM σ (Option Text))) c =
      (.ok (Workspace.read fs path c.workspace).1,
        { c with workspace := (Workspace.read fs path c.workspace).2 }) := rfl

/-- A checker learns of modules what the workspace resolves, and a failure ends the call. -/
theorem run_call_resolve (importer : Text) (names : List Text) (c : Compiler σ) :
    run (call fs (CheckM.resolve importer names : CheckM σ (List (Option ResolvedModule)))) c =
      ((Workspace.resolveNames fs importer names c.workspace).1,
        { c with workspace := (Workspace.resolveNames fs importer names c.workspace).2 }) := by
  have hinquire : run (call fs (CheckM.inquire (.resolve importer names) : CheckM σ _)) c =
      (.ok (Workspace.resolveNames fs importer names c.workspace).1,
        { c with workspace := (Workspace.resolveNames fs importer names c.workspace).2 }) := rfl
  rw [CheckM.resolve, call_bind, run_bind, hinquire]
  dsimp only
  cases (Workspace.resolveNames fs importer names c.workspace).1 with
  | error e => rfl
  | ok modules => rfl

/-- The step keeps what holds of the compiler, whether it succeeds or fails. -/
def Preserves (invariant : Compiler σ → Prop) (step : CompileM σ α) : Prop :=
  ∀ c : Compiler σ, invariant c → invariant (run step c).2

variable {invariant : Compiler σ → Prop}

theorem Preserves.pure (a : α) : Preserves invariant (Pure.pure a : CompileM σ α) := fun _ h ↦ h

theorem Preserves.bind {step : CompileM σ α} {next : α → CompileM σ β}
    (hstep : Preserves invariant step) (hnext : ∀ a, Preserves invariant (next a)) :
    Preserves invariant (step >>= next) := by
  intro c h
  have hfirst := hstep c h
  rw [run_bind]
  rcases hresult : run step c with ⟨_ | a, middle⟩
  · rwa [hresult] at hfirst
  · rw [hresult] at hfirst
    exact hnext a middle hfirst

/-- The step leaves the state of the checker as it is. -/
def KeepsState (step : CompileM σ α) : Prop := ∀ s, Preserves (fun c ↦ c.state = s) step

variable {fs}

theorem KeepsState.pure (a : α) : KeepsState (Pure.pure a : CompileM σ α) := fun _ ↦
  Preserves.pure a

theorem KeepsState.bind {step : CompileM σ α} {next : α → CompileM σ β} (hstep : KeepsState step)
    (hnext : ∀ a, KeepsState (next a)) : KeepsState (step >>= next) := fun s ↦
  (hstep s).bind fun a ↦ hnext a s

theorem KeepsState.of_run_eq {step : CompileM σ α} (h : KeepsState step) {c c' : Compiler σ}
    {result : Except MissingRedirect α} (hrun : run step c = (result, c')) :
    c'.state = c.state := by
  have hstate := h c.state c rfl
  rwa [hrun] at hstate

theorem keepsState_call_inquire (inquiry : Inquiry) :
    KeepsState (call fs (CheckM.inquire inquiry : CheckM σ inquiry.Answer)) := fun _ _ h ↦ h

theorem keepsState_call_resolve (importer : Text) (names : List Text) :
    KeepsState (call fs (CheckM.resolve importer names :
      CheckM σ (List (Option ResolvedModule)))) := by
  rw [CheckM.resolve, call_bind]
  apply (keepsState_call_inquire _).bind
  rintro (_ | _)
  · exact fun _ _ h ↦ h
  · exact KeepsState.pure _

end FencedCode.Compiler
