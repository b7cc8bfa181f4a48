import FencedCode.Compiler
import FencedCode.Proofs.Workspace.Frame

/-!
# Steps of a compiler

A step of a request takes a compiler to another one, with a result or an error. A sequence of steps
succeeds when each of them does. Steps that only ask, and steps that do not fail, can be put
together from steps of the same kind.
-/

namespace FencedCode

namespace Compiler

variable {σ α β : Type}

/-- What comes of a step: its result, and the compiler afterwards. -/
def run (step : CompileM σ α) (c : Compiler σ) : Except MissingRedirect α × Compiler σ := step c

theorem run_eq_of_fst_eq {step : CompileM σ α} {c : Compiler σ}
    {result : Except MissingRedirect α} (h : (run step c).1 = result) :
    run step c = (result, (run step c).2) := Prod.ext h rfl

theorem run_bind (step : CompileM σ α) (next : α → CompileM σ β) (c : Compiler σ) :
    run (step >>= next) c = match run step c with
      | (.ok a, middle) => run (next a) middle
      | (.error e, middle) => (.error e, middle) := by
  show ExceptT.bindCont next (run step c).1 (run step c).2 = _
  rcases run step c with ⟨_ | _, middle⟩
  · rfl
  · rfl

/-- A sequence of two steps succeeds when both do. -/
theorem run_bind_eq_ok_iff {step : CompileM σ α} {next : α → CompileM σ β} {c c' : Compiler σ}
    {b : β} : run (step >>= next) c = (.ok b, c') ↔
      ∃ a middle, run step c = (.ok a, middle) ∧ run (next a) middle = (.ok b, c') := by
  rw [run_bind]
  rcases run step c with ⟨_ | a, middle⟩
  · simp
  · constructor
    · intro h
      exact ⟨a, middle, rfl, h⟩
    · rintro ⟨_, _, heq, h⟩
      obtain ⟨ha, rfl⟩ := Prod.mk.inj heq
      rwa [Except.ok.inj ha]

/-- A sequence of two steps fails when the first does, or the second behind it. -/
theorem run_bind_eq_error_iff {step : CompileM σ α} {next : α → CompileM σ β} {c c' : Compiler σ}
    {e : MissingRedirect} : run (step >>= next) c = (.error e, c') ↔
      run step c = (.error e, c') ∨
        ∃ a middle, run step c = (.ok a, middle) ∧ run (next a) middle = (.error e, c') := by
  rw [run_bind]
  rcases run step c with ⟨_ | a, middle⟩
  · simp
  · simp [and_assoc]

theorem run_pure_eq_ok_iff {a b : α} {c c' : Compiler σ} :
    run (pure a) c = (.ok b, c') ↔ a = b ∧ c = c' := by
  show (Except.ok a, c) = (Except.ok b, c') ↔ _
  simp

theorem run_inWorkspace_eq_ok_iff {action : StateM Workspace α} {c c' : Compiler σ} {a : α} :
    run (inWorkspace action) c = (.ok a, c') ↔
      (action c.workspace).1 = a ∧ { c with workspace := (action c.workspace).2 } = c' := by
  show (Except.ok (action c.workspace).1, _) = (Except.ok a, c') ↔ _
  simp

theorem run_pure_ne_error (a : α) (e : MissingRedirect) (c c' : Compiler σ) :
    run (pure a) c ≠ (.error e, c') := by
  show (Except.ok a, c) ≠ (Except.error e, c')
  simp

theorem run_inWorkspace_ne_error (action : StateM Workspace α) (e : MissingRedirect)
    (c c' : Compiler σ) : run (inWorkspace action) c ≠ (.error e, c') := by
  show (Except.ok (action c.workspace).1, _) ≠ (Except.error e, c')
  simp

/-- The step changes nothing of the workspace but what it remembers. -/
def OnlyAsks (step : CompileM σ α) : Prop :=
  ∀ c : Compiler σ, c.workspace.Agrees (run step c).2.workspace

theorem OnlyAsks.pure (a : α) : OnlyAsks (Pure.pure a : CompileM σ α) := fun c ↦
  Workspace.Agrees.refl c.workspace

theorem OnlyAsks.bind {step : CompileM σ α} {next : α → CompileM σ β} (hstep : OnlyAsks step)
    (hnext : ∀ a, OnlyAsks (next a)) : OnlyAsks (step >>= next) := by
  intro c
  have hfirst := hstep c
  rw [run_bind]
  rcases hresult : run step c with ⟨_ | a, middle⟩
  · rwa [hresult] at hfirst
  · rw [hresult] at hfirst
    exact hfirst.trans (hnext a middle)

theorem OnlyAsks.of_run_eq {step : CompileM σ α} (h : OnlyAsks step) {c c' : Compiler σ}
    {result : Except MissingRedirect α} (hrun : run step c = (result, c')) :
    c.workspace.Agrees c'.workspace := by
  have hagrees := h c
  rwa [hrun] at hagrees

theorem onlyAsks_call (fs : FileSystem) (action : CheckM σ α) : OnlyAsks (call fs action) := fun c ↦
  (Workspace.lastsWhileAsking_agrees fs).run (Workspace.onlyAsks_answer fs) (action c.state)
    c.workspace

theorem onlyAsks_inWorkspace {action : StateM Workspace α} (h : Workspace.OnlyAsks action) :
    OnlyAsks (inWorkspace action : CompileM σ α) := fun c ↦ h c.workspace

/-- The step does not fail, whatever it starts from. -/
def Succeeds (step : CompileM σ α) : Prop := ∀ c : Compiler σ, ∃ a c', run step c = (.ok a, c')

theorem Succeeds.pure (a : α) : Succeeds (Pure.pure a : CompileM σ α) := fun c ↦ ⟨a, c, rfl⟩

theorem Succeeds.bind {step : CompileM σ α} {next : α → CompileM σ β} (hstep : Succeeds step)
    (hnext : ∀ a, Succeeds (next a)) : Succeeds (step >>= next) := by
  intro c
  obtain ⟨a, middle, ha⟩ := hstep c
  obtain ⟨b, c', hb⟩ := hnext a middle
  exact ⟨b, c', run_bind_eq_ok_iff.mpr ⟨a, middle, ha, hb⟩⟩

theorem succeeds_inWorkspace (action : StateM Workspace α) :
    Succeeds (inWorkspace action : CompileM σ α) := fun _ ↦
  ⟨_, _, run_inWorkspace_eq_ok_iff.mpr ⟨rfl, rfl⟩⟩

end Compiler

end FencedCode
