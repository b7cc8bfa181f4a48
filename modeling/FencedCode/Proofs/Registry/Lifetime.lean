import FencedCode.Proofs.Compiler.Request
import FencedCode.Proofs.Table
import FencedCode.Registry
import Mathlib.Data.Set.Card

/-!
# The lives of the compilers in a registry

A registry holds a compiler from the first successful call for its settings up to the next time
that it is disposed of or that the registry is cleared. In between every call comes back to this
compiler, in the state in which the requests have left it. So a checker is begun once in each of
these stretches of time, however often its compiler is asked for.
-/

namespace FencedCode

variable {φ σ : Type}

/-- The compiler after requests, of which each finds a disk of its own. -/
def Compiler.served (checker : Checker σ) (requests : List (FileSystem × FileSet))
    (c : Compiler σ) : Compiler σ :=
  requests.foldl (fun c (fs, files) ↦ (run (compile checker fs files) c).2) c

theorem Compiler.served_append (checker : Checker σ)
    (requests others : List (FileSystem × FileSet)) (c : Compiler σ) :
    served checker (requests ++ others) c = served checker others (served checker requests c) :=
  List.foldl_append

namespace Registry

/-- What is done with a registry. A compiler that is handed out may go through requests. -/
inductive Action
  | compiler (source : ConfigSource) (settings : Settings)
      (requests : List (FileSystem × FileSet))
  | dispose (id : SettingsId)
  | clear

inductive Reply (σ : Type)
  /-- The compiler as it was handed out. -/
  | compiler (c : Compiler σ)
  | failed (error : CompileError)
  | disposed (found : Bool)
  | cleared

/-- The action takes away the compiler with the identity. -/
def Action.Ends (id : SettingsId) : Action → Prop
  | compiler _ _ _ => False
  | dispose other => other = id
  | clear => True

/-- The requests that the action has for the compiler with the identity. -/
def Action.requestsFor (id : SettingsId) : Action → List (FileSystem × FileSet)
  | compiler _ settings requests => if settings.id = id then requests else []
  | dispose _ => []
  | clear => []

variable (checker : Checker σ) (factory : CheckerFactory φ σ)

def perform (action : Action) (r : Registry φ σ) : Reply σ × Registry φ σ :=
  match action with
  | .compiler source settings requests =>
    match r.withCompiler factory source settings
        (fun c ↦ (c, Compiler.served checker requests c)) with
    | (.ok c, r) => (.compiler c, r)
    | (.error e, r) => (.failed e, r)
  | .dispose id => (.disposed (r.remove id).1, (r.remove id).2)
  | .clear => (.cleared, r.clear)

/-- The registry after actions. -/
def after (history : List Action) (r : Registry φ σ) : Registry φ σ :=
  history.foldl (fun r action ↦ (perform checker factory action r).2) r

theorem after_append (history later : List Action) (r : Registry φ σ) :
    after checker factory (history ++ later) r =
      after checker factory later (after checker factory history r) := List.foldl_append

/-- A new compiler for settings with these options, in the state that the factory begins. -/
def born (settings : Settings) (options : CompilerOptions) (s : φ) : Compiler σ :=
  ⟨Workspace.ofOptions options settings.redirects, (factory options s).1⟩

/-! ## One action -/

section Step

variable {checker factory} {r : Registry φ σ} {source : ConfigSource} {settings : Settings}
  {requests : List (FileSystem × FileSet)} {c : Compiler σ} {id : SettingsId}

theorem perform_compiler_of_some (h : r.compilers.get? settings.id = some c) :
    perform checker factory (.compiler source settings requests) r =
      (.compiler c, r.keep settings.id (Compiler.served checker requests c)) := by
  simp only [perform, withCompiler, compiler, h]

theorem perform_compiler_of_error (h : r.compilers.get? settings.id = none) {e : CompileError}
    (hload : settings.loadOptions source = .error e) :
    perform checker factory (.compiler source settings requests) r = (.failed e, r) := by
  simp only [perform, withCompiler, compiler, h, hload]

theorem perform_compiler_of_ok (h : r.compilers.get? settings.id = none)
    {options : CompilerOptions} (hload : settings.loadOptions source = .ok options) :
    perform checker factory (.compiler source settings requests) r =
      (.compiler (born factory settings options r.factoryState),
        (create factory settings options r).2.keep settings.id
          (Compiler.served checker requests (born factory settings options r.factoryState))) := by
  simp only [perform, withCompiler, compiler, h, hload]
  rfl

theorem contains_iff_exists : r.contains id ↔ ∃ c, r.compilers.get? id = some c :=
  Option.isSome_iff_exists

theorem not_contains_iff : ¬ r.contains id ↔ r.compilers.get? id = none := by
  rw [contains, Table.contains, Bool.not_eq_true, Option.isSome_eq_false_iff,
    Option.isNone_iff_eq_none]

theorem get?_keep (r : Registry φ σ) (id other : SettingsId) (c : Compiler σ) :
    (r.keep id c).compilers.get? other =
      if id = other then some c else r.compilers.get? other := Table.get?_insert _ _ _ _

/-- A call hands out the compiler that there is or, when the options can be loaded, a new one. The
registry then holds it as the requests have left it. -/
theorem of_compiler_reply
    (h : (perform checker factory (.compiler source settings requests) r).1 = .compiler c) :
    (r.compilers.get? settings.id = some c ∨ r.compilers.get? settings.id = none ∧
      ∃ options, settings.loadOptions source = .ok options ∧
        c = born factory settings options r.factoryState) ∧
    ∀ id, (perform checker factory (.compiler source settings requests) r).2.compilers.get? id =
      if settings.id = id then some (Compiler.served checker requests c)
      else r.compilers.get? id := by
  cases hold : r.compilers.get? settings.id with
  | some d =>
    rw [perform_compiler_of_some hold] at h ⊢
    obtain rfl : d = c := Reply.compiler.inj h
    exact ⟨.inl rfl, fun id ↦ get?_keep r _ _ _⟩
  | none =>
    cases hload : settings.loadOptions source with
    | error e =>
      rw [perform_compiler_of_error hold hload] at h
      cases h
    | ok options =>
      rw [perform_compiler_of_ok hold hload] at h ⊢
      obtain rfl := Reply.compiler.inj h
      refine ⟨.inr ⟨rfl, options, rfl, rfl⟩, fun id ↦ ?_⟩
      rw [get?_keep, create]
      split
      · rfl
      · rename_i hother
        exact (Table.get?_insert _ _ _ _).trans (if_neg hother)

theorem compiler_reply_or_failed (checker : Checker σ) (factory : CheckerFactory φ σ)
    (source : ConfigSource) (settings : Settings) (requests : List (FileSystem × FileSet))
    (r : Registry φ σ) :
    (∃ c, (perform checker factory (.compiler source settings requests) r).1 = .compiler c) ∨
      ∃ e, r.compilers.get? settings.id = none ∧ settings.loadOptions source = .error e ∧
        perform checker factory (.compiler source settings requests) r = (.failed e, r) := by
  cases hold : r.compilers.get? settings.id with
  | some c => exact .inl ⟨c, by rw [perform_compiler_of_some hold]⟩
  | none =>
    cases hload : settings.loadOptions source with
    | error e => exact .inr ⟨e, rfl, rfl, perform_compiler_of_error hold hload⟩
    | ok options => exact .inl ⟨_, by rw [perform_compiler_of_ok hold hload]⟩

theorem failed_reply_iff {e : CompileError} :
    (perform checker factory (.compiler source settings requests) r).1 = .failed e ↔
      ¬ r.contains settings.id ∧ settings.loadOptions source = .error e := by
  rw [not_contains_iff]
  constructor
  · intro h
    rcases compiler_reply_or_failed checker factory source settings requests r with
      ⟨c, hc⟩ | ⟨e', hold, hload, hperform⟩
    · cases hc.symm.trans h
    · rw [hperform] at h
      obtain rfl := Reply.failed.inj h
      exact ⟨hold, hload⟩
  · rintro ⟨hold, hload⟩
    rw [perform_compiler_of_error hold hload]

/-- A call that fails changes nothing. -/
theorem perform_of_failed_reply {e : CompileError}
    (h : (perform checker factory (.compiler source settings requests) r).1 = .failed e) :
    (perform checker factory (.compiler source settings requests) r).2 = r := by
  obtain ⟨hold, hload⟩ := failed_reply_iff.mp h
  rw [perform_compiler_of_error (not_contains_iff.mp hold) hload]

theorem get?_perform_dispose (other : SettingsId) :
    (perform checker factory (.dispose other) r).2.compilers.get? id =
      if other = id then none else r.compilers.get? id := Table.get?_erase _ _ _

variable {action : Action}

theorem get?_perform_of_ends (h : action.Ends id) :
    (perform checker factory action r).2.compilers.get? id = none := by
  cases action with
  | compiler source settings requests => exact h.elim
  | dispose other => exact (get?_perform_dispose other).trans (if_pos h)
  | clear => rfl

/-- A compiler stays until it is taken away, and only its own requests change it. -/
theorem get?_perform_of_not_ends (h : ¬ action.Ends id) (hc : r.compilers.get? id = some c) :
    (perform checker factory action r).2.compilers.get? id =
      some (Compiler.served checker (action.requestsFor id) c) := by
  cases action with
  | compiler source settings requests =>
    rcases compiler_reply_or_failed checker factory source settings requests r with
      ⟨d, hreply⟩ | ⟨e, hold, -, hperform⟩
    · obtain ⟨hd, hnew⟩ := of_compiler_reply hreply
      rw [hnew, Action.requestsFor]
      by_cases hid : settings.id = id
      · subst hid
        rw [hc] at hd
        have hsame : c = d := by
          rcases hd with hd | ⟨hnone, -⟩
          · exact Option.some.inj hd
          · cases hnone
        rw [if_pos rfl, if_pos rfl, hsame]
      · rw [if_neg hid, if_neg hid]
        exact hc
    · have hid : settings.id ≠ id := by
        rintro rfl
        cases hold.symm.trans hc
      rw [hperform, Action.requestsFor, if_neg hid]
      exact hc
  | dispose other => exact (get?_perform_dispose other).trans ((if_neg h).trans hc)
  | clear => exact absurd trivial h

theorem contains_perform_iff : (perform checker factory action r).2.contains id ↔
    (∃ source settings requests c, action = .compiler source settings requests ∧
      settings.id = id ∧ (perform checker factory action r).1 = .compiler c) ∨
    (r.contains id ∧ ¬ action.Ends id) := by
  constructor
  · intro h
    by_cases hends : action.Ends id
    · exact absurd h (not_contains_iff.mpr (get?_perform_of_ends hends))
    · by_cases hold : r.contains id
      · exact .inr ⟨hold, hends⟩
      · cases action with
        | compiler source settings requests =>
          rcases compiler_reply_or_failed checker factory source settings requests r with
            ⟨c, hreply⟩ | ⟨e, -, -, hperform⟩
          · have hid : settings.id = id := by
              by_contra hid
              rw [contains_iff_exists, (of_compiler_reply hreply).2, if_neg hid,
                ← contains_iff_exists] at h
              exact hold h
            exact .inl ⟨source, settings, requests, c, rfl, hid, hreply⟩
          · rw [hperform] at h
            exact absurd h hold
        | dispose other =>
          have hne : other ≠ id := hends
          rw [contains_iff_exists, get?_perform_dispose, if_neg hne, ← contains_iff_exists] at h
          exact absurd h hold
        | clear => exact absurd trivial hends
  · rintro (⟨source, settings, requests, c, rfl, rfl, hreply⟩ | ⟨hold, hends⟩)
    · exact contains_iff_exists.mpr ⟨_, ((of_compiler_reply hreply).2 _).trans (if_pos rfl)⟩
    · obtain ⟨c, hc⟩ := contains_iff_exists.mp hold
      exact contains_iff_exists.mpr ⟨_, get?_perform_of_not_ends hends hc⟩

/-- An identity is brought by a call that makes its compiler, and by nothing else. -/
theorem brings_iff :
    (¬ r.contains id ∧ (perform checker factory action r).2.contains id) ↔
      ∃ source settings requests options, action = .compiler source settings requests ∧
        settings.id = id ∧ ¬ r.contains id ∧ settings.loadOptions source = .ok options := by
  rw [contains_perform_iff]
  constructor
  · rintro ⟨hnot, ⟨source, settings, requests, c, rfl, rfl, hreply⟩ | ⟨hold, -⟩⟩
    · rcases (of_compiler_reply hreply).1 with hold | ⟨-, options, hload, -⟩
      · exact absurd (contains_iff_exists.mpr ⟨c, hold⟩) hnot
      · exact ⟨source, settings, requests, options, rfl, rfl, hnot, hload⟩
    · exact absurd hold hnot
  · rintro ⟨source, settings, requests, options, rfl, rfl, hnot, hload⟩
    have hperform : perform checker factory (.compiler source settings requests) r = _ :=
      perform_compiler_of_ok (not_contains_iff.mp hnot) hload
    exact ⟨hnot, .inl ⟨source, settings, requests, _, rfl, rfl, congrArg Prod.fst hperform⟩⟩

end Step

/-! ## A whole history -/

/-- A call for the identity has handed out a compiler, and nothing that came later takes it away. -/
def Held (r : Registry φ σ) (id : SettingsId) (history : List Action) : Prop :=
  ∃ before source settings requests later c,
    history = before ++ .compiler source settings requests :: later ∧ settings.id = id ∧
    (perform checker factory (.compiler source settings requests)
      (after checker factory before r)).1 = .compiler c ∧
    ∀ action ∈ later, ¬ action.Ends id

/-- The requests of a history for the compiler with the identity. -/
def requestsFor (id : SettingsId) (history : List Action) : List (FileSystem × FileSet) :=
  history.flatMap fun action ↦ action.requestsFor id

section History

variable {checker factory} {r : Registry φ σ} {id : SettingsId} {c : Compiler σ}

theorem get?_after_of_not_ends {history : List Action} (h : ∀ action ∈ history, ¬ action.Ends id)
    (hc : r.compilers.get? id = some c) :
    (after checker factory history r).compilers.get? id =
      some (Compiler.served checker (requestsFor id history) c) := by
  induction history generalizing r c with
  | nil => exact hc
  | cons action history ih =>
    obtain ⟨hfirst, hrest⟩ := List.forall_mem_cons.mp h
    rw [requestsFor, List.flatMap_cons, Compiler.served_append]
    exact ih hrest (get?_perform_of_not_ends hfirst hc)

theorem after_append_singleton (history : List Action) (action : Action) :
    after checker factory (history ++ [action]) r =
      (perform checker factory action (after checker factory history r)).2 :=
  after_append checker factory history [action] r

/-- From a call on, the registry holds the compiler as all requests since have left it. -/
theorem get?_after_reply {source : ConfigSource} {settings : Settings}
    {requests : List (FileSystem × FileSet)} {later : List Action}
    (hreply : (perform checker factory (.compiler source settings requests) r).1 = .compiler c)
    (hlater : ∀ action ∈ later, ¬ action.Ends settings.id) :
    (after checker factory (.compiler source settings requests :: later) r).compilers.get?
        settings.id =
      some (Compiler.served checker (requests ++ requestsFor settings.id later) c) := by
  have hgiven := ((of_compiler_reply hreply).2 settings.id).trans (if_pos rfl)
  rw [Compiler.served_append]
  exact get?_after_of_not_ends hlater hgiven

theorem Held.contains {history : List Action} (h : Held checker factory r id history) :
    (after checker factory history r).contains id := by
  obtain ⟨before, source, settings, requests, later, c, rfl, rfl, hreply, hlater⟩ := h
  rw [contains_iff_exists, after_append]
  exact ⟨_, get?_after_reply hreply hlater⟩

theorem contains_after_iff_held (hnew : ∀ id, ¬ r.contains id) (history : List Action) :
    (after checker factory history r).contains id ↔ Held checker factory r id history := by
  constructor
  · induction history using List.reverseRecOn with
    | nil => exact fun h ↦ absurd h (hnew id)
    | append_singleton history action ih =>
      intro h
      rw [after_append_singleton, contains_perform_iff] at h
      rcases h with ⟨source, settings, requests, c, rfl, hid, hreply⟩ | ⟨hold, hends⟩
      · exact ⟨history, source, settings, requests, [], c, rfl, hid, hreply,
          fun action ha ↦ absurd ha List.not_mem_nil⟩
      · obtain ⟨before, source, settings, requests, later, c, rfl, hid, hreply, hlater⟩ := ih hold
        refine ⟨before, source, settings, requests, later ++ [action], c,
          by rw [List.append_assoc, List.cons_append], hid, hreply, fun other hother ↦ ?_⟩
        rcases List.mem_append.mp hother with hother | hother
        · exact hlater other hother
        · exact List.mem_singleton.mp hother ▸ hends
  · exact Held.contains

/-- A later call for the identity comes back to the compiler that was handed out, as all requests
since have left it, whatever its settings would now load. -/
theorem later_reply {source : ConfigSource} {settings : Settings}
    {requests : List (FileSystem × FileSet)} {between : List Action}
    (hreply : (perform checker factory (.compiler source settings requests) r).1 = .compiler c)
    (hbetween : ∀ action ∈ between, ¬ action.Ends settings.id) (source' : ConfigSource)
    {settings' : Settings} (hid : settings'.id = settings.id)
    (requests' : List (FileSystem × FileSet)) :
    (perform checker factory (.compiler source' settings' requests')
      (after checker factory (.compiler source settings requests :: between) r)).1 =
        .compiler (Compiler.served checker (requests ++ requestsFor settings.id between) c) := by
  have hheld := get?_after_reply hreply hbetween
  rw [← hid] at hheld ⊢
  rw [perform_compiler_of_some hheld]

end History

/-! ## Counting the runs of the factory -/

/-- The factory, with a count of its runs. -/
def counted (factory : CheckerFactory φ σ) : CheckerFactory (φ × Nat) σ := fun options s ↦
  ((factory options s.1).1, (factory options s.1).2, s.2 + 1)

/-- A stretch of moments up to `n` with the property, from the first to the last, that goes on
neither way. -/
structure IsStretch (P : Nat → Prop) (n first last : Nat) : Prop where
  first_le : first ≤ last
  last_le : last ≤ n
  holds : ∀ i, first ≤ i → i ≤ last → P i
  before : ∀ i, i + 1 = first → ¬ P i
  behind : last < n → ¬ P (last + 1)

theorem exists_last {P : Nat → Prop} {n first : Nat} (hle : first ≤ n) (h : P first) :
    ∃ last, first ≤ last ∧ last ≤ n ∧ (∀ i, first ≤ i → i ≤ last → P i) ∧
      (last < n → ¬ P (last + 1)) := by
  induction hle using Nat.decreasingInduction with
  | self =>
    exact ⟨n, le_rfl, le_rfl, fun i hfirst hlast ↦ le_antisymm hfirst hlast ▸ h,
      fun hlt ↦ absurd hlt (lt_irrefl n)⟩
  | of_succ first hlt ih =>
    by_cases hnext : P (first + 1)
    · obtain ⟨last, hfirst, hlast, hholds, hbehind⟩ := ih hnext
      refine ⟨last, Nat.le_of_succ_le hfirst, hlast, fun i hi hi' ↦ ?_, hbehind⟩
      rcases Nat.eq_or_lt_of_le hi with rfl | hi
      · exact h
      · exact hholds i hi hi'
    · exact ⟨first, le_rfl, Nat.le_of_lt hlt, fun i hi hi' ↦ le_antisymm hi hi' ▸ h,
        fun _ ↦ hnext⟩

theorem IsStretch.last_le_last {P : Nat → Prop} {n first last last' : Nat}
    (h : IsStretch P n first last) (h' : IsStretch P n first last') : last' ≤ last := by
  by_contra hlt
  exact h.behind (by have := h'.last_le; omega)
    (h'.holds (last + 1) (by have := h.first_le; omega) (by omega))

/-- Stretches are counted at the moments before them. -/
theorem ncard_stretches {ι : Type} {P : ι → Nat → Prop} (h : ∀ i, ¬ P i 0) (n : Nat) :
    {s : ι × Nat × Nat | IsStretch (P s.1) n s.2.1 s.2.2}.ncard =
      {b : ι × Nat | b.2 < n ∧ ¬ P b.1 b.2 ∧ P b.1 (b.2 + 1)}.ncard := by
  have hpos : ∀ {i first last}, IsStretch (P i) n first last → 0 < first := by
    intro i first last hs
    by_contra hzero
    obtain rfl : first = 0 := by omega
    exact h i (hs.holds 0 le_rfl hs.first_le)
  apply Set.ncard_congr fun s _ ↦ (s.1, s.2.1 - 1)
  · rintro ⟨i, first, last⟩ hs
    have hfirst : first - 1 + 1 = first := Nat.sub_add_cancel (hpos hs)
    have hlast := hs.last_le
    have hle := hs.first_le
    dsimp only at hlast hle
    refine ⟨by dsimp only; omega, hs.before _ hfirst, ?_⟩
    show P i (first - 1 + 1)
    rw [hfirst]
    exact hs.holds first le_rfl hle
  · rintro ⟨i, first, last⟩ ⟨i', first', last'⟩ hs hs' heq
    obtain ⟨rfl, hfirst⟩ := Prod.mk.inj heq
    have hsame : first = first' := by
      have := hpos hs
      have := hpos hs'
      dsimp only at *
      omega
    subst hsame
    have hlast : last = last' := le_antisymm (hs'.last_le_last hs) (hs.last_le_last hs')
    rw [hlast]
  · rintro ⟨i, m⟩ ⟨hlt, hnot, hyes⟩
    obtain ⟨last, hfirst, hlast, hholds, hbehind⟩ := exists_last (Nat.succ_le_of_lt hlt) hyes
    refine ⟨(i, m + 1, last), ⟨hfirst, hlast, hholds, fun k hk ↦ ?_, hbehind⟩, rfl⟩
    exact Nat.succ.inj hk ▸ hnot

section Runs

variable {checker factory} {r : Registry (φ × Nat) σ} {action : Action}

/-- The factory runs for an action exactly when the action brings a new identity, and no action
brings more than one. -/
theorem runs_perform (checker : Checker σ) (factory : CheckerFactory φ σ)
    (action : Action) (r : Registry (φ × Nat) σ) :
    (∃ id, (∀ other, ¬ r.contains other ∧
        (perform checker (counted factory) action r).2.contains other ↔ other = id) ∧
      (perform checker (counted factory) action r).2.factoryState.2 = r.factoryState.2 + 1) ∨
    ((∀ other, ¬ (¬ r.contains other ∧
        (perform checker (counted factory) action r).2.contains other)) ∧
      (perform checker (counted factory) action r).2.factoryState.2 = r.factoryState.2) := by
  simp only [brings_iff]
  cases action with
  | compiler source settings requests =>
    cases hold : r.compilers.get? settings.id with
    | some c =>
      refine .inr ⟨?_, by rw [perform_compiler_of_some hold]; rfl⟩
      rintro other ⟨_, _, _, _, hsame, rfl, hnot, -⟩
      obtain ⟨-, rfl, -⟩ := Action.compiler.inj hsame
      exact hnot (contains_iff_exists.mpr ⟨c, hold⟩)
    | none =>
      cases hload : settings.loadOptions source with
      | error e =>
        refine .inr ⟨?_, by rw [perform_compiler_of_error hold hload]⟩
        rintro other ⟨_, _, _, options, hsame, rfl, -, hok⟩
        obtain ⟨rfl, rfl, -⟩ := Action.compiler.inj hsame
        cases hload.symm.trans hok
      | ok options =>
        refine .inl ⟨settings.id, fun other ↦ ⟨?_, ?_⟩,
          by rw [perform_compiler_of_ok hold hload]; rfl⟩
        · rintro ⟨_, _, _, _, hsame, rfl, -⟩
          rw [(Action.compiler.inj hsame).2.1]
        · rintro rfl
          exact ⟨source, settings, requests, options, rfl, rfl, not_contains_iff.mpr hold, hload⟩
  | dispose id =>
    refine .inr ⟨?_, rfl⟩
    rintro other ⟨_, _, _, _, ⟨⟩, -⟩
  | clear =>
    refine .inr ⟨?_, rfl⟩
    rintro other ⟨_, _, _, _, ⟨⟩, -⟩

end Runs

/-- The identities that come into a registry, each with the number of actions before. -/
def beginnings (r : Registry φ σ) (history : List Action) : Set (SettingsId × Nat) :=
  {b | b.2 < history.length ∧ ¬ (after checker factory (history.take b.2) r).contains b.1 ∧
    (after checker factory (history.take (b.2 + 1)) r).contains b.1}

theorem beginnings_append_singleton (r : Registry φ σ) (history : List Action) (action : Action) :
    beginnings checker factory r (history ++ [action]) = beginnings checker factory r history ∪
      {b | b.2 = history.length ∧ ¬ (after checker factory history r).contains b.1 ∧
        (perform checker factory action (after checker factory history r)).2.contains b.1} := by
  ext ⟨id, m⟩
  rw [← after_append_singleton]
  simp only [beginnings, Set.mem_union, Set.mem_ofPred_eq, List.length_append, List.length_cons,
    List.length_nil]
  rcases Nat.lt_trichotomy m history.length with hlt | rfl | hgt
  · rw [List.take_append_of_le_length (Nat.le_of_lt hlt), List.take_append_of_le_length hlt]
    simp [hlt, Nat.lt_succ_of_lt hlt, Nat.ne_of_lt hlt]
  · have hwhole : (history ++ [action]).take (history.length + 1) = history ++ [action] :=
      List.take_of_length_le (by simp)
    rw [hwhole, List.take_left]
    simp
  · simp [Nat.not_lt_of_gt hgt, Nat.ne_of_gt hgt, Nat.not_lt_of_ge hgt]

/-- The factory runs once for each beginning. -/
theorem runs_after (s : φ) (history : List Action) :
    (beginnings checker (counted factory) (.new (s, 0)) history).Finite ∧
    (after checker (counted factory) history (.new (s, 0))).factoryState.2 =
      (beginnings checker (counted factory) (.new (s, 0)) history).ncard := by
  induction history using List.reverseRecOn with
  | nil =>
    have hnone : beginnings checker (counted factory) (.new (s, 0)) [] = ∅ :=
      Set.eq_empty_of_forall_notMem fun b hb ↦ Nat.not_lt_zero _ hb.1
    rw [hnone, Set.ncard_empty]
    exact ⟨Set.finite_empty, rfl⟩
  | append_singleton history action ih =>
    obtain ⟨hfinite, hcount⟩ := ih
    rw [beginnings_append_singleton, after_append_singleton]
    rcases runs_perform checker factory action
      (after checker (counted factory) history (.new (s, 0))) with ⟨id, hnew, hruns⟩ | ⟨hnew, hruns⟩
    · simp only [hnew]
      have hone : {b : SettingsId × Nat | b.2 = history.length ∧ b.1 = id} =
          {(id, history.length)} := by
        ext ⟨other, m⟩
        simp [and_comm]
      have hfresh : (id, history.length) ∉
          beginnings checker (counted factory) (.new (s, 0)) history :=
        fun hmem ↦ Nat.lt_irrefl _ hmem.1
      rw [hone, Set.union_singleton, Set.ncard_insert_of_notMem hfresh hfinite, hruns, hcount]
      exact ⟨hfinite.insert _, rfl⟩
    · simp only [hnew, and_false, Set.ofPred_false, Set.union_empty]
      exact ⟨hfinite, hruns.trans hcount⟩

/-! ## All together -/

/-- A new registry holds an identity exactly when a call for it has succeeded since it was last
disposed of or the registry was cleared. The factory has run once for each stretch of time in which
an identity is held. A call comes back to the compiler of its stretch, whatever its settings now
load, and the first call of a stretch makes it from what they load. A call that fails gives the
error of the options and changes nothing, and disposing tells whether the identity was held. -/
theorem compiler_lifetimes (checker : Checker σ) (factory : CheckerFactory φ σ) (s : φ)
    (history : List Action) :
    (∀ id, (after checker factory history (.new s)).contains id ↔
      Held checker factory (.new s) id history) ∧
    (after checker (counted factory) history (.new (s, 0))).factoryState.2 =
      {stretch : SettingsId × Nat × Nat | IsStretch
        (fun i ↦ (after checker (counted factory) (history.take i) (.new (s, 0))).contains
          stretch.1) history.length stretch.2.1 stretch.2.2}.ncard ∧
    (∀ before source settings requests between c,
      history = before ++ .compiler source settings requests :: between →
      (perform checker factory (.compiler source settings requests)
        (after checker factory before (.new s))).1 = .compiler c →
      (∀ action ∈ between, ¬ action.Ends settings.id) →
      ∀ source' settings' requests', settings'.id = settings.id →
        (perform checker factory (.compiler source' settings' requests')
          (after checker factory history (.new s))).1 =
            .compiler (Compiler.served checker (requests ++ requestsFor settings.id between) c)) ∧
    (∀ source settings requests options,
      ¬ (after checker factory history (.new s)).contains settings.id →
      settings.loadOptions source = .ok options →
      (perform checker factory (.compiler source settings requests)
        (after checker factory history (.new s))).1 = .compiler (born factory settings options
          (after checker factory history (.new s)).factoryState)) ∧
    (∀ source settings requests e,
      ((perform checker factory (.compiler source settings requests)
        (after checker factory history (.new s))).1 = .failed e ↔
          ¬ (after checker factory history (.new s)).contains settings.id ∧
            settings.loadOptions source = .error e) ∧
      ((perform checker factory (.compiler source settings requests)
        (after checker factory history (.new s))).1 = .failed e →
          (perform checker factory (.compiler source settings requests)
            (after checker factory history (.new s))).2 =
              after checker factory history (.new s))) ∧
    ∀ id, ∃ found,
      (perform checker factory (.dispose id) (after checker factory history (.new s))).1 =
        .disposed found ∧
      (found ↔ (after checker factory history (.new s)).contains id) := by
  refine ⟨fun id ↦ contains_after_iff_held (fun id ↦ not_contains_iff.mpr rfl) history, ?_, ?_, ?_,
    fun source settings requests e ↦ ⟨failed_reply_iff, perform_of_failed_reply⟩,
    fun id ↦ ⟨_, rfl, Iff.rfl⟩⟩
  · have hstretches := ncard_stretches
      (P := fun id i ↦ (after checker (counted factory) (history.take i) (.new (s, 0))).contains id)
      (fun id ↦ not_contains_iff.mpr rfl) history.length
    exact (runs_after checker factory s history).2.trans hstretches.symm
  · rintro before source settings requests between c rfl hreply hbetween source' settings' requests'
      hid
    rw [after_append]
    exact later_reply hreply hbetween source' hid requests'
  · intro source settings requests options hnot hload
    rw [perform_compiler_of_ok (not_contains_iff.mp hnot) hload]

/-- Settings with a configuration file, and a disk that has the file or has lost it. -/
def fileSettings : Settings := ⟨⟨0⟩, some "c.json".toList, none, Table.empty, none, none, none⟩

def fileSource (text : Except ReadFault Text) : ConfigSource := ⟨fun _ ↦ text, fun _ ↦ false⟩

/-- The file is lost after the first call. The second call still has its compiler, and a call after
the compiler was disposed of fails. When the file is there again, a second stretch begins. -/
theorem compiler_lifetimes_of_lost_file :
    ∃ options e,
      fileSettings.loadOptions (fileSource (.ok "{}".toList)) = .ok options ∧
      fileSettings.loadOptions (fileSource (.error .missing)) = .error e ∧
      (perform (Compiler.steadyChecker []) (fun _ (s : Unit) ↦ ((), s))
        (.compiler (fileSource (.error .missing)) fileSettings [])
        (after (Compiler.steadyChecker []) (fun _ (s : Unit) ↦ ((), s))
          [.compiler (fileSource (.ok "{}".toList)) fileSettings []] (.new ()))).1 =
        .compiler (born (fun _ (s : Unit) ↦ ((), s)) fileSettings options ()) ∧
      (perform (Compiler.steadyChecker []) (fun _ (s : Unit) ↦ ((), s))
        (.compiler (fileSource (.error .missing)) fileSettings [])
        (after (Compiler.steadyChecker []) (fun _ (s : Unit) ↦ ((), s))
          [.compiler (fileSource (.ok "{}".toList)) fileSettings [], .dispose ⟨0⟩]
          (.new ()))).1 = .failed e ∧
      {stretch : SettingsId × Nat × Nat | IsStretch (fun i ↦
        (after (Compiler.steadyChecker []) (counted fun _ (s : Unit) ↦ ((), s))
          (([.compiler (fileSource (.ok "{}".toList)) fileSettings [], .dispose ⟨0⟩,
            .compiler (fileSource (.ok "{}".toList)) fileSettings []] : List Action).take i)
          (.new ((), 0))).contains stretch.1) 3 stretch.2.1 stretch.2.2}.ncard = 2 := by
  obtain ⟨options, hload⟩ : ∃ options,
      fileSettings.loadOptions (fileSource (.ok "{}".toList)) = .ok options := by
    rcases hresult : fileSettings.loadOptions (fileSource (.ok "{}".toList)) with e | options
    · have hfine : (fileSettings.loadOptions (fileSource (.ok "{}".toList))).isOk := by
        decide +kernel
      rw [hresult] at hfine
      cases hfine
    · exact ⟨options, rfl⟩
  have hlost : fileSettings.loadOptions (fileSource (.error .missing)) =
      .error (.missingFile "c.json".toList) := rfl
  have hfirst := (compiler_lifetimes (Compiler.steadyChecker []) (fun _ (s : Unit) ↦ ((), s)) ()
    []).2.2.2.1 _ fileSettings [] options (not_contains_iff.mpr rfl) hload
  refine ⟨options, _, hload, hlost, ?_, ?_, ?_⟩
  · exact (compiler_lifetimes _ _ () [.compiler _ fileSettings []]).2.2.1 [] _ _ _ [] _ rfl hfirst
      (List.forall_mem_nil _) _ fileSettings [] rfl
  · have hends : Action.Ends ⟨0⟩ (.dispose ⟨0⟩) := rfl
    exact (((compiler_lifetimes _ _ () _).2.2.2.2.1 _ fileSettings [] _).1).mpr
      ⟨not_contains_iff.mpr (get?_perform_of_ends hends), hlost⟩
  · exact (compiler_lifetimes _ _ () _).2.1.symm.trans (by decide +kernel)

end Registry

end FencedCode
