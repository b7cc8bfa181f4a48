import FencedCode.Proofs.Checker.Import
import FencedCode.Proofs.Compiler.History

/-!
# Where kept analyses come from

The line checker only keeps analyses that it has made, each under the path of the file that a
request had come to. So behind everything that is kept stands a moment of an earlier request, and
the workspace has only grown since.
-/

namespace FencedCode.LineChecker

open Compiler Workspace

variable {fs : FileSystem} {c start : Compiler State} {file path text : Text} {a : Analysis}

/-! ## One call -/

theorem kept_run_analyze (fs : FileSystem) (file : Text) (c : Compiler State) :
    (run (call fs (analyze file)) c).2.state.kept = c.state.kept := by
  have hkeeps : Preserves (fun d : Compiler State ↦ d.state.kept = c.state.kept)
      (call fs (analyze file)) := by
    have hstate : ∀ {α : Type} {step : CompileM State α}, KeepsState step →
        Preserves (fun d : Compiler State ↦ d.state.kept = c.state.kept) step :=
      fun hstep d hd ↦ (congrArg State.kept (hstep d.state d rfl)).trans hd
    rw [analyze, call_bind]
    apply Preserves.bind
    · exact fun d hd ↦ hd
    intro _
    rw [call_bind]
    apply (hstate (keepsState_call_inquire _)).bind
    intro text
    rw [call_bind]
    apply (hstate (keepsState_call_inquire _)).bind
    intro version
    rw [call_bind]
    exact (hstate (keepsState_call_addImports fs _ _ _ _)).bind fun _ ↦ Preserves.pure _
  exact hkeeps c rfl

/-- A new analysis is kept, and an analysis that fails is not. -/
theorem run_renew (fs : FileSystem) (file : Text) (c : Compiler State) :
    run (call fs (typeDiagnostics.renew file)) c =
      match run (call fs (analyze file)) c with
      | (.ok a, d) => (.ok a.diagnostics,
          ⟨d.workspace, { d.state with kept := d.state.kept.insert file a }⟩)
      | (.error e, d) => (.error e, d) := by
  rw [typeDiagnostics.renew, call_bind, run_bind]
  rcases run (call fs (analyze file)) c with ⟨_ | a, d⟩
  · rfl
  · rfl

/-- What is kept after a call was kept before, or the call has made it. -/
theorem kept_run_typeDiagnostics
    (h : (run (call fs (typeDiagnostics file)) c).2.state.kept.get? path = some a) :
    c.state.kept.get? path = some a ∨ path = file ∧ (run (call fs (analyze file)) c).1 = .ok a ∧
      (run (call fs (analyze file)) c).2.workspace =
        (run (call fs (typeDiagnostics file)) c).2.workspace := by
  have hkept := kept_run_analyze fs file c
  rcases run_call_typeDiagnostics fs file c with ⟨_, -, -, hrun⟩ | hrun
  · rw [hrun] at h
    exact .inl h
  · rw [hrun, run_renew] at h
    rw [hrun, run_renew]
    rcases hanalyze : run (call fs (analyze file)) c with ⟨e | made, d⟩
    · rw [hanalyze] at h hkept
      rw [hkept] at h
      exact .inl h
    · rw [hanalyze] at h hkept
      dsimp only at h hkept
      rw [Table.get?_insert, hkept] at h
      by_cases hpath : file = path
      · rw [if_pos hpath] at h
        exact .inr ⟨hpath.symm, congrArg _ (Option.some.inj h), rfl⟩
      · rw [if_neg hpath] at h
        exact .inl h

/-! ## One file -/

theorem run_compileFile_after_types (fs : FileSystem)
    (htext : c.workspace.overlay.text? file = some text) (source : SourceFile) :
    (run (compileFile lineChecker fs file source) c).2.state =
        (run (call fs (typeDiagnostics file)) c).2.state ∧
      (run (call fs (typeDiagnostics file)) c).2.workspace.GrowsTo
        (run (compileFile lineChecker fs file source) c).2.workspace := by
  have hcheck : (run (check lineChecker fs file) c).2 =
      (run (call fs (typeDiagnostics file)) c).2 := by
    rw [run_check fs htext, run_bind]
    rcases run (call fs (typeDiagnostics file)) c with ⟨_ | _, _⟩
    · rfl
    · rfl
  rw [← hcheck, compileFile, run_bind]
  rcases run (check lineChecker fs file) c with ⟨_ | findings, d⟩
  · exact ⟨rfl, GrowsTo.refl _⟩
  · exact ⟨rfl, along_placeAll fs (lastsWhileAsking_growsTo fs) findings.diagnostics d.workspace⟩

/-- The analysis was made of the file at the path in this state, and the workspace in which it ended
has grown to the given one. -/
structure MadeAt (fs : FileSystem) (path : Text) (a : Analysis) (start : Compiler State)
    (w : Workspace) : Prop where
  analyzed : (run (call fs (analyze path)) start).1 = .ok a
  growsTo : (run (call fs (analyze path)) start).2.workspace.GrowsTo w

theorem MadeAt.grown {w w' : Workspace} (h : MadeAt fs path a start w) (hgrows : w.GrowsTo w') :
    MadeAt fs path a start w' := ⟨h.analyzed, h.growsTo.trans hgrows⟩

theorem kept_run_compileFile (htext : c.workspace.overlay.text? file = some text)
    {source : SourceFile}
    (h : (run (compileFile lineChecker fs file source) c).2.state.kept.get? path = some a) :
    c.state.kept.get? path = some a ∨ path = file ∧
      MadeAt fs path a c (run (compileFile lineChecker fs file source) c).2.workspace := by
  obtain ⟨hstate, hgrows⟩ := run_compileFile_after_types fs htext source
  rw [hstate] at h
  rcases kept_run_typeDiagnostics h with hold | ⟨rfl, hmade, hsame⟩
  · exact .inl hold
  · exact .inr ⟨rfl, hmade, hsame ▸ hgrows⟩

/-! ## Many files and many requests -/

theorem run_compileFiles_cons (fs : FileSystem) (e : Text × SourceFile)
    (rest : List (Text × SourceFile)) (c : Compiler State) :
    run (compileFiles lineChecker fs (e :: rest)) c =
      match run (compileFile lineChecker fs e.1 e.2) c with
      | (.ok compiled, d) =>
        ((run (compileFiles lineChecker fs rest) d).1.map ((e.1, compiled) :: ·),
          (run (compileFiles lineChecker fs rest) d).2)
      | (.error e, d) => (.error e, d) := by
  rw [compileFiles, run_bind]
  rcases run (compileFile lineChecker fs e.1 e.2) c with ⟨_ | compiled, d⟩
  · rfl
  · dsimp only
    rw [run_bind]
    rcases run (compileFiles lineChecker fs rest) d with ⟨_ | _, _⟩
    · rfl
    · rfl

/-- What is kept after some files of a request was kept before, or one of them was analyzed. -/
theorem kept_run_compileFiles {entries : List (Text × SourceFile)} {o : Overlay}
    (hoverlay : c.workspace.overlay = o)
    (hwritten : ∀ e ∈ entries, ∃ text, o.text? e.1 = some text)
    (h : (run (compileFiles lineChecker fs entries) c).2.state.kept.get? path = some a) :
    c.state.kept.get? path = some a ∨ ∃ earlier source later done start,
      entries = earlier ++ (path, source) :: later ∧
      run (compileFiles lineChecker fs earlier) c = (.ok done, start) ∧
      MadeAt fs path a start (run (compileFiles lineChecker fs entries) c).2.workspace := by
  induction entries generalizing c with
  | nil => exact .inl h
  | cons e rest ih =>
    obtain ⟨⟨text, htext⟩, hrest⟩ := List.forall_mem_cons.mp hwritten
    have hfile (hkept : (run (compileFile lineChecker fs e.1 e.2) c).2.state.kept.get? path =
        some a) := kept_run_compileFile (hoverlay ▸ htext) hkept
    have hagrees := onlyAsks_compileFile lineChecker fs e.1 e.2 c
    rw [run_compileFiles_cons] at h ⊢
    rcases hrun : run (compileFile lineChecker fs e.1 e.2) c with ⟨error | compiled, d⟩
    · rw [hrun] at h hfile
      exact (hfile h).imp_right fun ⟨hpath, hmade⟩ ↦
        ⟨[], e.2, rest, [], c, by rw [hpath]; rfl, rfl, hmade⟩
    · rw [hrun] at h hfile hagrees
      dsimp only at h hfile hagrees ⊢
      rcases ih (hagrees.overlay.trans hoverlay) hrest h with hkept | hmade
      · refine (hfile hkept).imp_right fun ⟨hpath, hmade⟩ ↦
          ⟨[], e.2, rest, [], c, by rw [hpath]; rfl, rfl, ?_⟩
        exact hmade.grown (growsTo_compileFiles lineChecker fs rest d)
      · obtain ⟨earlier, source, later, done, start, rfl, hdone, hmade⟩ := hmade
        refine .inr ⟨e :: earlier, source, later, (e.1, compiled) :: done, start, rfl, ?_, hmade⟩
        rw [run_compileFiles_cons, hrun]
        dsimp only
        rw [hdone]
        rfl

/-- A history of requests on the compiler comes to the file at the path, on the disk and in the
state. -/
def ComesTo (history : List (FileSystem × FileSet)) (c : Compiler State) (path : Text)
    (fs : FileSystem) (start : Compiler State) : Prop :=
  ∃ before files later, history = before ++ (fs, files) :: later ∧
    Reaches lineChecker fs files (afterRequests before c) path start

theorem ComesTo.append {history : List (FileSystem × FileSet)} (h : ComesTo history c path fs start)
    (others : List (FileSystem × FileSet)) : ComesTo (history ++ others) c path fs start := by
  obtain ⟨before, files, later, rfl, hreaches⟩ := h
  exact ⟨before, files, later ++ others, by rw [List.append_assoc, List.cons_append], hreaches⟩

theorem afterRequests_append_singleton (history : List (FileSystem × FileSet))
    (request : FileSystem × FileSet) (c : Compiler State) :
    afterRequests (history ++ [request]) c =
      (run (compile lineChecker request.1 request.2) (afterRequests history c)).2 :=
  List.foldl_append

theorem exists_text?_prepare (files : FileSet) (w : Workspace) :
    ∀ e ∈ files.entries, ∃ text, (prepare files w).overlay.text? e.1 = some text := by
  intro e he
  obtain ⟨file, -, htext⟩ := FileSet.exists_text?_writeAll he
  exact ⟨_, (overlay_prepare files w).symm ▸ htext w.overlay⟩

/-- Behind every analysis that is kept after a history stands a moment at which it was made. -/
theorem kept_afterRequests {history : List (FileSystem × FileSet)}
    (hempty : c.state = State.empty)
    (h : (afterRequests history c).state.kept.get? path = some a) :
    ∃ fs start, ComesTo history c path fs start ∧
      MadeAt fs path a start (afterRequests history c).workspace := by
  induction history using List.reverseRecOn with
  | nil =>
    rw [afterRequests, List.foldl_nil, hempty] at h
    cases h
  | append_singleton history request ih =>
    obtain ⟨fs, files⟩ := request
    rw [afterRequests_append_singleton] at h ⊢
    have hgrows := growsTo_compile lineChecker fs files (afterRequests history c)
    rw [run_compile_snd] at h
    rcases kept_run_compileFiles rfl (exists_text?_prepare files _) h with hold | hnew
    · obtain ⟨fs₀, start, hcomes, hmade⟩ := ih hold
      exact ⟨fs₀, start, hcomes.append _, hmade.grown hgrows⟩
    · obtain ⟨earlier, source, later, done, start, hsplit, hdone, hmade⟩ := hnew
      refine ⟨fs, start, ⟨history, files, [], rfl, earlier, source, later, done, hsplit, hdone⟩, ?_⟩
      rw [run_compile_snd]
      exact hmade

/-- What is kept when a request comes to a file was made in an earlier request. -/
theorem kept_of_reaches {history : List (FileSystem × FileSet)} {files : FileSet}
    (hempty : c.state = State.empty)
    (hreaches : Reaches lineChecker fs files (afterRequests history c) path start)
    (h : start.state.kept.get? path = some a) :
    ∃ fs₀ start₀, ComesTo history c path fs₀ start₀ ∧ MadeAt fs₀ path a start₀ start.workspace := by
  have hgrows := hreaches.growsTo
  obtain ⟨earlier, source, later, done, hsplit, hrun⟩ := hreaches
  have hfirst : start = (run (compileFiles lineChecker fs earlier) { afterRequests history c with
      workspace := prepare files (afterRequests history c).workspace }).2 := by rw [hrun]
  have hwritten : ∀ e ∈ earlier, ∃ text,
      (prepare files (afterRequests history c).workspace).overlay.text? e.1 = some text :=
    fun e he ↦ exists_text?_prepare files _ e (hsplit ▸ List.mem_append_left _ he)
  rw [hfirst] at h
  rcases kept_run_compileFiles rfl hwritten h with hold | hnew
  · obtain ⟨fs₀, start₀, hcomes, hmade⟩ := kept_afterRequests hempty hold
    exact ⟨fs₀, start₀, hcomes, hmade.grown hgrows⟩
  · -- The keys of a request are different, so none of its earlier files has this path.
    obtain ⟨front, other, back, _, _, rfl, -, -⟩ := hnew
    have hkeys := files.nodup_keys
    rw [hsplit] at hkeys
    simp [List.nodup_append] at hkeys

end FencedCode.LineChecker
