import FencedCode.Proofs.Workspace.Looking
import FencedCode.Proofs.Workspace.Version

/-!
# Redirected names

A redirected name stands for the path that it is redirected to. What it comes to is a module with
the identity that was configured, or the failure that names it and the path. An absolute path means
one file for every importing file. Looking up other names before it makes no difference, so the
name comes to the same in every batch.
-/

namespace FencedCode

theorem except_map_eq_ok_iff {ε α β : Type} {f : α → β} {x : Except ε α} {b : β} :
    x.map f = .ok b ↔ ∃ a, x = .ok a ∧ f a = b := by
  cases x <;> simp [Except.map]

theorem except_map_eq_error_iff {ε α β : Type} {f : α → β} {x : Except ε α} {e : ε} :
    x.map f = .error e ↔ x = .error e := by
  cases x <;> simp [Except.map]

theorem except_bind_eq_ok_iff {ε α β : Type} {f : α → Except ε β} {x : Except ε α} {b : β} :
    x.bind f = .ok b ↔ ∃ a, x = .ok a ∧ f a = .ok b := by
  cases x <;> simp [Except.bind]

theorem except_bind_eq_error_iff {ε α β : Type} {f : α → Except ε β} {x : Except ε α} {e : ε} :
    x.bind f = .error e ↔ x = .error e ∨ ∃ a, x = .ok a ∧ f a = .error e := by
  cases x <;> simp [Except.bind]

namespace ResolverConfig

/-- An absolute name is looked up as it is, whoever imports it. -/
theorem resolver_of_isAbsolute (config : ResolverConfig) {name : Text} (h : Path.isAbsolute name)
    (importer : Text) : config.resolver name importer = (do
      return (← Lookup.fileOrFolder (Path.normalize name)).bind ResolvedModule.ofFile?) := by
  rw [resolver, if_pos (by simp [h]), Path.join, if_pos h]

end ResolverConfig

namespace Workspace

variable {fs : FileSystem} {w w' : Workspace} {importer name : Text} {redirect : Redirect}

/-! ## The outcome of a redirect -/

/-- A redirected name with the identity that is configured for it, when its target is found. -/
def identified (name : Text) (redirect : Redirect) (found : Option ResolvedModule) :
    Except MissingRedirect ResolvedModule :=
  match found with
  | some m => .ok { m with installed := false, package := some redirect.package }
  | none => .error ⟨name, redirect.target⟩

/-- What a redirected name comes to in a file. -/
def redirectOutcome (fs : FileSystem) (w : Workspace) (name : Text) (redirect : Redirect)
    (importer : Text) : Except MissingRedirect ResolvedModule :=
  identified name redirect (runLookup fs (w.resolver redirect.target importer) w).1

theorem redirected_eq_map (name : Text) (redirect : Redirect) (found : Option ResolvedModule) :
    redirected name redirect found = (identified name redirect found).map some := by
  cases found <;> rfl

theorem identified_spec (name : Text) (redirect : Redirect) (found : Option ResolvedModule) :
    identified name redirect found = .error ⟨name, redirect.target⟩ ∨
      ∃ m, identified name redirect found = .ok m ∧ m.installed = false ∧
        m.package = some redirect.package := by
  cases found with
  | none => exact .inl rfl
  | some m => exact .inr ⟨_, rfl, rfl, rfl⟩

/-- A redirect fails exactly when nothing is found for its target. -/
theorem redirectOutcome_eq_error_iff {e : MissingRedirect} :
    redirectOutcome fs w name redirect importer = .error e ↔
      (w.view fs).eval (w.resolver redirect.target importer) = none ∧
        e = ⟨name, redirect.target⟩ := by
  rw [redirectOutcome, runLookup_fst]
  cases (w.view fs).eval (w.resolver redirect.target importer) with
  | none => simp [identified, eq_comm]
  | some m => simp [identified]

theorem resolveName_fst_of_redirect (h : w.redirects.get? name = some redirect) :
    (resolveName fs importer name w).1 =
      (redirectOutcome fs w name redirect importer).map some := by
  rw [resolveName_of_redirect h, redirected_eq_map, redirectOutcome]

theorem ShowsSame.redirectOutcome_eq (h : ShowsSame fs w w')
    (hresolver : w'.resolver = w.resolver) :
    redirectOutcome fs w' name redirect importer = redirectOutcome fs w name redirect importer := by
  rw [redirectOutcome, hresolver, h.runLookup_eq, redirectOutcome]

theorem redirectOutcome_of_isAbsolute {options : CompilerOptions}
    (hresolver : w.resolver = Resolver.ofOptions options) (h : Path.isAbsolute redirect.target)
    (first second : Text) :
    redirectOutcome fs w name redirect first = redirectOutcome fs w name redirect second := by
  rw [redirectOutcome, hresolver, Resolver.ofOptions, ResolverConfig.resolver_of_isAbsolute _ h,
    redirectOutcome, hresolver, Resolver.ofOptions, ResolverConfig.resolver_of_isAbsolute _ h]

/-! ## Batches -/

theorem showsSame_resolveName (fs : FileSystem) (importer name : Text) (w : Workspace) :
    ShowsSame fs w (resolveName fs importer name w).2 :=
  (lastsWhileAsking_showsSame fs).resolveName importer name w

/-- Resolving a name changes no redirect and no outcome of one. -/
theorem redirectOutcome_after_resolveName (fs : FileSystem) (importer first : Text) (w : Workspace)
    (name : Text) (redirect : Redirect) (other : Text) :
    redirectOutcome fs (resolveName fs importer first w).2 name redirect other =
      redirectOutcome fs w name redirect other :=
  (showsSame_resolveName fs importer first w).redirectOutcome_eq
    (onlyAsks_resolveName fs importer first w).resolver

/-- Only a redirect can fail. -/
theorem exists_redirect_of_resolveName_error {e : MissingRedirect}
    (h : (resolveName fs importer name w).1 = .error e) :
    ∃ redirect, w.redirects.get? name = some redirect ∧
      redirectOutcome fs w name redirect importer = .error e := by
  cases hredirect : w.redirects.get? name with
  | some redirect =>
    rw [resolveName_fst_of_redirect hredirect, except_map_eq_error_iff] at h
    exact ⟨redirect, rfl, h⟩
  | none =>
    by_cases hroute : Path.isRelative name ∧ w.isVirtual importer
    · rw [resolveName_of_relative hredirect hroute.1 hroute.2] at h
      exact absurd h (by simp)
    · rw [resolveName_of_ordinary hredirect hroute] at h
      exact absurd h (by simp)

/-- A batch fails only with the failure of one of its redirected names. -/
theorem exists_redirect_of_resolveNames_error {names : List Text} {e : MissingRedirect}
    (h : (resolveNames fs importer names w).1 = .error e) :
    ∃ other ∈ names, ∃ redirect, w.redirects.get? other = some redirect ∧
      redirectOutcome fs w other redirect importer = .error e := by
  induction names generalizing w with
  | nil =>
    have hdone : (.ok [] : Except MissingRedirect (List (Option ResolvedModule))) = .error e := h
    exact absurd hdone (by simp)
  | cons first rest ih =>
    rw [resolveNames_cons_fst, except_bind_eq_error_iff] at h
    rcases h with hfirst | ⟨found, -, h⟩
    · obtain ⟨redirect, hredirect, houtcome⟩ := exists_redirect_of_resolveName_error hfirst
      exact ⟨first, List.mem_cons_self, redirect, hredirect, houtcome⟩
    · obtain ⟨other, hmem, redirect, hredirect, houtcome⟩ := ih (except_map_eq_error_iff.mp h)
      rw [(onlyAsks_resolveName fs importer first w).redirects] at hredirect
      rw [redirectOutcome_after_resolveName] at houtcome
      exact ⟨other, List.mem_cons_of_mem _ hmem, redirect, hredirect, houtcome⟩

/-- In a batch that succeeds, each name is resolved by itself, where the same files are shown. -/
theorem exists_resolveName_of_resolveNames_ok {names : List Text}
    {founds : List (Option ResolvedModule)} (h : (resolveNames fs importer names w).1 = .ok founds)
    {i : Nat} (hi : names[i]? = some name) :
    ∃ found middle, founds[i]? = some found ∧ w.Agrees middle ∧ ShowsSame fs w middle ∧
      (resolveName fs importer name middle).1 = .ok found := by
  induction names generalizing w founds i with
  | nil => exact absurd hi (by simp)
  | cons first rest ih =>
    rw [resolveNames_cons_fst, except_bind_eq_ok_iff] at h
    obtain ⟨found, hfirst, h⟩ := h
    obtain ⟨others, hothers, rfl⟩ := except_map_eq_ok_iff.mp h
    cases i with
    | zero =>
      obtain rfl := Option.some.inj hi
      exact ⟨found, w, rfl, Agrees.refl w, ShowsSame.refl fs w, hfirst⟩
    | succ i =>
      obtain ⟨last, middle, hlast, hagrees, hsame, hname⟩ := ih hothers hi
      exact ⟨last, middle, hlast, (onlyAsks_resolveName fs importer first w).trans hagrees,
        (showsSame_resolveName fs importer first w).trans hsame, hname⟩

/-- In a batch that succeeds, a redirected name comes to its own outcome wherever it stands. -/
theorem exists_module_of_resolveNames_ok {names : List Text} {founds : List (Option ResolvedModule)}
    (hredirect : w.redirects.get? name = some redirect)
    (h : (resolveNames fs importer names w).1 = .ok founds) {i : Nat}
    (hi : names[i]? = some name) :
    ∃ m, redirectOutcome fs w name redirect importer = .ok m ∧ founds[i]? = some (some m) := by
  obtain ⟨found, middle, hfound, hagrees, hsame, hname⟩ :=
    exists_resolveName_of_resolveNames_ok h hi
  rw [resolveName_fst_of_redirect (hagrees.redirects ▸ hredirect),
    hsame.redirectOutcome_eq hagrees.resolver, except_map_eq_ok_iff] at hname
  obtain ⟨m, houtcome, rfl⟩ := hname
  exact ⟨m, houtcome, hfound⟩

theorem resolveNames_singleton (h : w.redirects.get? name = some redirect) :
    (resolveNames fs importer [name] w).1 =
      (redirectOutcome fs w name redirect importer).map fun m ↦ [some m] := by
  rw [resolveNames_cons_fst, resolveName_fst_of_redirect h]
  cases redirectOutcome fs w name redirect importer with
  | error e => rfl
  | ok m => rfl

/-! ## Every state of a run -/

theorem resolver_redirects_after (events : List Event) (w : Workspace) :
    (after events w).resolver = w.resolver ∧ (after events w).redirects = w.redirects := by
  induction events generalizing w with
  | nil => exact ⟨rfl, rfl⟩
  | cons event rest ih =>
    obtain ⟨hresolver, hredirects⟩ := ih (event.apply w)
    cases event with
    | write path text => exact ⟨hresolver, hredirects⟩
    | setScripts names => exact ⟨hresolver, hredirects⟩
    | ask fs inquiry =>
      have hagrees := onlyAsks_answer fs inquiry w
      exact ⟨hresolver.trans hagrees.resolver, hredirects.trans hagrees.redirects⟩

/-- In every state that a workspace can get into, a redirected name comes to a module with the
identity that is configured, or to the failure that names it and its path. It comes to the same in
every batch, and only failures of redirects end a batch. When the path is absolute, the name comes
to the same for every importing file. -/
theorem resolveNames_redirect (options : CompilerOptions) (redirects : Redirects)
    (events : List Event) (w : Workspace) (hw : w = after events (ofOptions options redirects))
    (name : Text) (redirect : Redirect) (hredirect : redirects.get? name = some redirect)
    (fs : FileSystem) :
    (∀ importer, (resolveNames fs importer [name] w).1 = .error ⟨name, redirect.target⟩ ∨
      ∃ m, (resolveNames fs importer [name] w).1 = .ok [some m] ∧ m.installed = false ∧
        m.package = some redirect.package) ∧
    (∀ importer (names : List Text) founds (i : Nat),
      (resolveNames fs importer names w).1 = .ok founds → names[i]? = some name →
        ∃ m, (resolveNames fs importer [name] w).1 = .ok [some m] ∧ founds[i]? = some (some m)) ∧
    (∀ importer names e, (resolveNames fs importer names w).1 = .error e →
      ∃ other ∈ names, ∃ r, redirects.get? other = some r ∧ e = ⟨other, r.target⟩) ∧
    (Path.isAbsolute redirect.target → ∀ first second,
      (resolveNames fs first [name] w).1 = (resolveNames fs second [name] w).1) := by
  obtain ⟨hresolver, hredirects⟩ := resolver_redirects_after events (ofOptions options redirects)
  rw [← hw] at hresolver hredirects
  have htable : w.redirects = redirects := hredirects
  have hname : w.redirects.get? name = some redirect := by rw [htable, hredirect]
  refine ⟨?_, ?_, ?_, ?_⟩
  · intro importer
    rw [resolveNames_singleton hname]
    rcases identified_spec name redirect (runLookup fs (w.resolver redirect.target importer) w).1
      with herror | ⟨m, hok, hinstalled, hpackage⟩
    · rw [redirectOutcome, herror]
      exact .inl rfl
    · rw [redirectOutcome, hok]
      exact .inr ⟨m, rfl, hinstalled, hpackage⟩
  · intro importer names founds i hok hi
    obtain ⟨m, houtcome, hfound⟩ := exists_module_of_resolveNames_ok hname hok hi
    refine ⟨m, ?_, hfound⟩
    rw [resolveNames_singleton hname, houtcome]
    rfl
  · intro importer names e herror
    obtain ⟨other, hmem, r, hother, houtcome⟩ := exists_redirect_of_resolveNames_error herror
    refine ⟨other, hmem, r, htable ▸ hother, ?_⟩
    rcases identified_spec other r (runLookup fs (w.resolver r.target importer) w).1
      with hfails | ⟨m, hok, -⟩
    · exact Except.error.inj (houtcome.symm.trans hfails)
    · exact absurd (houtcome.symm.trans hok) (by simp)
  · intro habsolute first second
    rw [resolveNames_singleton hname, resolveNames_singleton hname,
      redirectOutcome_of_isAbsolute hresolver habsolute first second]

/-- A package whose file is written. -/
def sampleRedirect : Redirect := ⟨"/ext/lib".toList, ⟨"lib".toList, [], "1.0".toList⟩⟩

/-- The package is the same for a file on disk and for one that is written. -/
theorem resolveNames_sampleRedirect :
    ∃ m, (resolveNames .empty "a.ts".toList ["lib".toList]
        (after [.write "/ext/lib.ts".toList [], .write "/d/b.ts".toList []]
          (ofOptions .empty (Table.ofList [("lib".toList, sampleRedirect)])))).1 = .ok [some m] ∧
      (resolveNames .empty "/d/b.ts".toList ["lib".toList]
        (after [.write "/ext/lib.ts".toList [], .write "/d/b.ts".toList []]
          (ofOptions .empty (Table.ofList [("lib".toList, sampleRedirect)])))).1 = .ok [some m] ∧
      m.installed = false ∧ m.package = some sampleRedirect.package := by
  generalize hw : after [.write "/ext/lib.ts".toList [], .write "/d/b.ts".toList []]
    (ofOptions .empty (Table.ofList [("lib".toList, sampleRedirect)])) = w
  have hfound : (resolveNames .empty "a.ts".toList ["lib".toList] w).1.toOption.isSome := by
    subst hw
    decide
  obtain ⟨houtcome, -, -, hsame⟩ := resolveNames_redirect .empty
    (Table.ofList [("lib".toList, sampleRedirect)]) _ w hw.symm "lib".toList sampleRedirect
    (by decide) .empty
  rcases houtcome "a.ts".toList with herror | ⟨m, hok, hinstalled, hpackage⟩
  · rw [herror] at hfound
    exact absurd hfound Bool.false_ne_true
  · exact ⟨m, hok, (hsame (by decide) _ _).trans hok, hinstalled, hpackage⟩

end Workspace

end FencedCode
