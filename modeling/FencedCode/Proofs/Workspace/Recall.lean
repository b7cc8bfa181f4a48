import FencedCode.Proofs.Workspace.Looking
import FencedCode.Proofs.Workspace.Version

/-!
# Recalled resolutions

A name that is not redirected, and that is not a relative name in a written file, is resolved once
for each importing file. The first request for the two runs the resolver, and every later one has
the answer of the first, whatever resolver, disk and files it finds by then. Each first request
counts as a miss and each later one as a hit; the other requests neither count nor are kept.
-/

namespace FencedCode.Workspace

/-- A request for one name, with the disk and the workspace that it finds. -/
structure Request where
  fs : FileSystem
  workspace : Workspace
  importer : Text
  name : Text

namespace Request

def answer (r : Request) : Except MissingRedirect (Option ResolvedModule) :=
  (resolveName r.fs r.importer r.name r.workspace).1

/-- The workspace that the request leaves. -/
def next (r : Request) : Workspace := (resolveName r.fs r.importer r.name r.workspace).2

/-- What the resolver finds in the place of the request. -/
def found (r : Request) : Option ResolvedModule :=
  (runLookup r.fs (r.workspace.resolver r.name r.importer) r.workspace).1

/-- The importing file and the name. -/
def pair (r : Request) : Text × Text := (r.importer, r.name)

/-- The name is not redirected, and is no relative name in a written file. -/
def IsOrdinary (r : Request) : Prop :=
  r.workspace.redirects.get? r.name = none ∧
    ¬ (Path.isRelative r.name ∧ r.workspace.isVirtual r.importer)

instance (r : Request) : Decidable r.IsOrdinary := inferInstanceAs (Decidable (_ ∧ ¬ (_ ∧ _)))

variable {r : Request}

/-- A request that is kept is answered from the memo, and no more is done than to count it. -/
theorem resolveName_of_kept (h : r.IsOrdinary) {kept : Option ResolvedModule}
    (hkept : r.workspace.memo.kept? r.importer r.name = some kept) (fs : FileSystem)
    (resolver : Resolver) :
    resolveName fs r.importer r.name { r.workspace with resolver } =
      (.ok kept, { r.workspace with resolver, memo := r.workspace.memo.countHit }) := by
  rw [resolveName_of_ordinary (w := { r.workspace with resolver }) h.1 h.2,
    resolveOrdinary_of_kept (w := { r.workspace with resolver }) hkept]

/-- A request that is not kept runs the resolver, and its outcome is then kept. -/
theorem resolveName_of_new (h : r.IsOrdinary)
    (hnew : r.workspace.memo.kept? r.importer r.name = none) :
    r.answer = .ok r.found ∧
      r.next.memo = r.workspace.memo.keep r.importer r.name r.found := by
  unfold answer next
  rw [resolveName_of_ordinary h.1 h.2, resolveOrdinary_of_new hnew]
  exact ⟨rfl, rfl⟩

theorem memo_next_of_not_isOrdinary (h : ¬ r.IsOrdinary) : r.next.memo = r.workspace.memo := by
  unfold next
  cases hredirect : r.workspace.redirects.get? r.name with
  | some redirect =>
    rw [resolveName_of_redirect hredirect]
    exact memo_runLookup _ _ _
  | none =>
    obtain ⟨hrelative, hvirtual⟩ := Classical.not_not.mp fun hroute ↦ h ⟨hredirect, hroute⟩
    rw [resolveName_of_relative hredirect hrelative hvirtual]
    exact memo_runLookup _ _ _

end Request

/-! ## What a memo holds -/

theorem eraseDups_append_singleton {α : Type} [BEq α] [LawfulBEq α] (l : List α) (a : α) :
    (l ++ [a]).eraseDups = if a ∈ l then l.eraseDups else l.eraseDups ++ [a] := by
  rw [List.eraseDups_append]
  split
  · simp [List.removeAll, *]
  · simp [List.removeAll, *, List.eraseDups_cons]

/-- The pairs of the ordinary requests, in order. -/
def pairs (past : List Request) : List (Text × Text) :=
  (past.filter fun r ↦ decide r.IsOrdinary).map Request.pair

/-- What the resolver found at the first ordinary request of the name for the file. -/
def recalled (past : List Request) (importer name : Text) : Option (Option ResolvedModule) :=
  (past.find? fun r ↦ decide (r.IsOrdinary ∧ r.pair = (importer, name))).map Request.found

/-- The memo is what the requests have left: it keeps the outcome of the first ordinary request of
each pair, the misses count the pairs, and the hits count all other ordinary requests. -/
structure Recalls (past : List Request) (memo : ResolutionMemo) : Prop where
  kept : ∀ importer name, memo.kept? importer name = recalled past importer name
  keys : memo.outcomes.keys = (pairs past).eraseDups
  misses : memo.misses = (pairs past).eraseDups.length
  hits : memo.hits + memo.misses = (pairs past).length

variable {past : List Request} {r : Request} {memo : ResolutionMemo}

theorem pairs_append_of_isOrdinary (h : r.IsOrdinary) :
    pairs (past ++ [r]) = pairs past ++ [r.pair] := by
  rw [pairs, List.filter_append, List.filter_singleton, decide_eq_true h, cond_true,
    List.map_append, List.map_singleton, pairs]

theorem pairs_append_of_not_isOrdinary (h : ¬ r.IsOrdinary) :
    pairs (past ++ [r]) = pairs past := by
  rw [pairs, List.filter_append, List.filter_singleton, decide_eq_false h, cond_false,
    List.append_nil, pairs]

theorem recalled_append (past : List Request) (r : Request) (importer name : Text) :
    recalled (past ++ [r]) importer name = (recalled past importer name).or
      (if r.IsOrdinary ∧ r.pair = (importer, name) then some r.found else none) := by
  rw [recalled, List.find?_append, Option.map_or, List.find?_singleton, ← recalled]
  by_cases h : r.IsOrdinary ∧ r.pair = (importer, name)
  · rw [if_pos h, if_pos (decide_eq_true h), Option.map_some]
  · rw [if_neg h, if_neg (by simpa using h), Option.map_none]

theorem recalled_eq_none_iff {importer name : Text} :
    recalled past importer name = none ↔ (importer, name) ∉ pairs past := by
  rw [recalled, Option.map_eq_none_iff, List.find?_eq_none, pairs]
  simp only [List.mem_map, List.mem_filter, decide_eq_true_eq, not_exists, not_and, and_imp]

theorem recalls_empty : Recalls [] ResolutionMemo.empty :=
  ⟨fun _ _ ↦ rfl, rfl, rfl, rfl⟩

/-- A pair that was asked for before adds a hit. -/
theorem Recalls.append_of_recalled (h : Recalls past r.workspace.memo) (hordinary : r.IsOrdinary)
    {kept : Option ResolvedModule} (hrecalled : recalled past r.importer r.name = some kept) :
    Recalls (past ++ [r]) r.workspace.memo.countHit := by
  have hmem : r.pair ∈ pairs past := by
    by_contra hnot
    rw [recalled_eq_none_iff.mpr hnot] at hrecalled
    exact absurd hrecalled (Option.some_ne_none kept).symm
  have hdistinct : (pairs (past ++ [r])).eraseDups = (pairs past).eraseDups := by
    rw [pairs_append_of_isOrdinary hordinary, eraseDups_append_singleton, if_pos hmem]
  refine ⟨fun importer name ↦ ?_, hdistinct ▸ h.keys, hdistinct ▸ h.misses, ?_⟩
  · show r.workspace.memo.kept? importer name = _
    rw [h.kept, recalled_append]
    split
    · rename_i hsame
      obtain ⟨rfl, rfl⟩ := Prod.mk.inj hsame.2
      rw [hrecalled, Option.some_or]
    · rw [Option.or_none]
  · rw [pairs_append_of_isOrdinary hordinary, List.length_append, ← h.hits]
    show r.workspace.memo.hits + 1 + r.workspace.memo.misses = _
    exact Nat.add_right_comm _ _ _

/-- A pair that was never asked for adds a miss, and its outcome. -/
theorem Recalls.append_of_new (h : Recalls past r.workspace.memo) (hordinary : r.IsOrdinary)
    (hnew : recalled past r.importer r.name = none) :
    Recalls (past ++ [r]) (r.workspace.memo.keep r.importer r.name r.found) := by
  have hnot : r.pair ∉ pairs past := recalled_eq_none_iff.mp hnew
  have hdistinct : (pairs (past ++ [r])).eraseDups = (pairs past).eraseDups ++ [r.pair] := by
    rw [pairs_append_of_isOrdinary hordinary, eraseDups_append_singleton, if_neg hnot]
  refine ⟨fun importer name ↦ ?_, ?_, ?_, ?_⟩
  · rw [ResolutionMemo.keep, ResolutionMemo.kept?, Table.get?_insert, ← ResolutionMemo.kept?,
      h.kept, recalled_append]
    by_cases hsame : (r.importer, r.name) = (importer, name)
    · obtain ⟨rfl, rfl⟩ := Prod.mk.inj hsame
      rw [if_pos rfl, hnew, Option.none_or, if_pos ⟨hordinary, rfl⟩]
    · rw [if_neg hsame, if_neg fun hboth ↦ hsame hboth.2, Option.or_none]
  · rw [hdistinct, ← h.keys, ResolutionMemo.keep, Table.keys_insert, h.keys]
    exact if_neg fun hmem ↦ hnot (List.mem_eraseDups.mp hmem)
  · rw [hdistinct, List.length_append, ← h.misses]
    rfl
  · rw [pairs_append_of_isOrdinary hordinary, List.length_append, ← h.hits]
    rfl

/-- The memo stays what the requests have left, request by request. -/
theorem Recalls.append (h : Recalls past r.workspace.memo) : Recalls (past ++ [r]) r.next.memo := by
  by_cases hordinary : r.IsOrdinary
  · have hkept := h.kept r.importer r.name
    cases hrecalled : recalled past r.importer r.name with
    | some kept =>
      have hnext := Request.resolveName_of_kept hordinary (hkept.trans hrecalled) r.fs
        r.workspace.resolver
      have hmemo : r.next.memo = r.workspace.memo.countHit := congrArg (·.2.memo) hnext
      rw [hmemo]
      exact h.append_of_recalled hordinary hrecalled
    | none =>
      rw [(Request.resolveName_of_new hordinary (hkept.trans hrecalled)).2]
      exact h.append_of_new hordinary hrecalled
  · have hpairs : pairs (past ++ [r]) = pairs past := pairs_append_of_not_isOrdinary hordinary
    rw [Request.memo_next_of_not_isOrdinary hordinary]
    refine ⟨fun importer name ↦ ?_, hpairs ▸ h.keys, hpairs ▸ h.misses, hpairs ▸ h.hits⟩
    rw [h.kept, recalled_append, if_neg fun hsame ↦ hordinary hsame.1, Option.or_none]

/-! ## Requests in a row -/

/-- Each request finds the memo that the one before it has left. The first one finds `first`, and
`last` is left behind the last one. -/
inductive Threads : ResolutionMemo → List Request → ResolutionMemo → Prop
  | nil (memo : ResolutionMemo) : Threads memo [] memo
  | cons {r : Request} {rest : List Request} {last : ResolutionMemo}
      (h : Threads r.next.memo rest last) : Threads r.workspace.memo (r :: rest) last

variable {first middle last : ResolutionMemo} {front back : List Request}

theorem Threads.append (h : Threads first front middle) (h' : Threads middle back last) :
    Threads first (front ++ back) last := by
  induction h with
  | nil _ => exact h'
  | cons _ ih => exact .cons (ih h')

theorem Threads.recalls (h : Threads first front last) (hpast : Recalls past first) :
    Recalls (past ++ front) last := by
  induction h generalizing past with
  | nil _ =>
    rw [List.append_nil]
    exact hpast
  | cons _ ih =>
    rw [List.append_cons]
    exact ih hpast.append

theorem Threads.of_append_cons (h : Threads first (front ++ r :: back) last) :
    Threads first front r.workspace.memo := by
  induction front generalizing first with
  | nil =>
    cases h
    exact .nil _
  | cons d rest ih =>
    cases h with
    | cons h => exact .cons (ih h)

/-! ## Runs -/

/-- The requests for the names, up to the first one that fails. -/
def requestsFor (fs : FileSystem) (importer : Text) : List Text → Workspace → List Request
  | [], _ => []
  | name :: rest, w =>
    let r : Request := ⟨fs, w, importer, name⟩
    r :: match r.answer with
      | .error _ => []
      | .ok _ => requestsFor fs importer rest r.next

/-- What can happen in a run. Beside the events of a workspace, its resolver may become another one.
Names may be asked for one at a time, so the resolver and the disk may change before each of
them. -/
inductive Step
  | event (event : Event)
  | replaceResolver (resolver : Resolver)

namespace Step

def apply (w : Workspace) : Step → Workspace
  | event e => e.apply w
  | replaceResolver resolver => { w with resolver }

/-- The requests that are made in the step. -/
def requests (w : Workspace) : Step → List Request
  | event (.ask fs (.resolve importer names)) => requestsFor fs importer names w
  | _ => []

end Step

def afterSteps (steps : List Step) (w : Workspace) : Workspace := steps.foldl Step.apply w

/-- The requests of a run, in order. -/
def requests : List Step → Workspace → List Request
  | [], _ => []
  | step :: rest, w => step.requests w ++ requests rest (step.apply w)

variable {fs : FileSystem} {importer name : Text} {rest : List Text} {w w' : Workspace}

theorem requestsFor_cons_of_error {e : MissingRedirect}
    (h : resolveName fs importer name w = (.error e, w')) :
    requestsFor fs importer (name :: rest) w = [⟨fs, w, importer, name⟩] := by
  simp only [requestsFor, Request.answer, h]

theorem requestsFor_cons_of_ok {found : Option ResolvedModule}
    (h : resolveName fs importer name w = (.ok found, w')) :
    requestsFor fs importer (name :: rest) w =
      ⟨fs, w, importer, name⟩ :: requestsFor fs importer rest w' := by
  simp only [requestsFor, Request.answer, Request.next, h]

/-- A batch has the answers of its requests, or the first error among them. -/
theorem resolveNames_eq_mapM (fs : FileSystem) (importer : Text) (names : List Text)
    (w : Workspace) : (resolveNames fs importer names w).1 =
      (requestsFor fs importer names w).mapM Request.answer := by
  induction names generalizing w with
  | nil => rfl
  | cons name rest ih =>
    rcases hname : resolveName fs importer name w with ⟨e | found, w'⟩
    · have hanswer : Request.answer ⟨fs, w, importer, name⟩ = .error e := congrArg Prod.fst hname
      rw [resolveNames_cons_of_error hname, requestsFor_cons_of_error hname, List.mapM_cons,
        hanswer]
      rfl
    · have hanswer : Request.answer ⟨fs, w, importer, name⟩ = .ok found := congrArg Prod.fst hname
      rw [resolveNames_cons_of_ok hname, requestsFor_cons_of_ok hname, List.mapM_cons, hanswer,
        ih]
      rfl

theorem threads_requestsFor (fs : FileSystem) (importer : Text) (names : List Text)
    (w : Workspace) : Threads w.memo (requestsFor fs importer names w)
      (resolveNames fs importer names w).2.memo := by
  induction names generalizing w with
  | nil => exact .nil _
  | cons name rest ih =>
    rcases hname : resolveName fs importer name w with ⟨e | found, w'⟩
    · have hnext : Request.next ⟨fs, w, importer, name⟩ = w' := congrArg Prod.snd hname
      rw [resolveNames_cons_of_error hname, requestsFor_cons_of_error hname, ← hnext]
      exact .cons (r := ⟨fs, w, importer, name⟩) (.nil _)
    · have hnext : Request.next ⟨fs, w, importer, name⟩ = w' := congrArg Prod.snd hname
      rw [resolveNames_cons_of_ok hname, requestsFor_cons_of_ok hname, ← hnext]
      exact .cons (r := ⟨fs, w, importer, name⟩) (ih _)

theorem Step.threads_requests (w : Workspace) (step : Step) :
    Threads w.memo (step.requests w) (step.apply w).memo := by
  cases step with
  | replaceResolver resolver => exact .nil _
  | event e =>
    cases e with
    | write path text => exact .nil _
    | setScripts names => exact .nil _
    | ask fs inquiry =>
      cases inquiry with
      | options => exact .nil _
      | scripts => exact .nil _
      | version path => exact .nil _
      | file request =>
        have hmemo : (apply w (event (.ask fs (.file request)))).memo = w.memo :=
          memo_lookUp fs request w
        rw [hmemo]
        exact .nil _
      | resolve importer names => exact threads_requestsFor fs importer names w

theorem threads_requests (steps : List Step) (w : Workspace) :
    Threads w.memo (requests steps w) (afterSteps steps w).memo := by
  induction steps generalizing w with
  | nil => exact .nil _
  | cons step rest ih => exact (step.threads_requests w).append (ih _)

theorem requests_append (steps others : List Step) (w : Workspace) :
    requests (steps ++ others) w = requests steps w ++ requests others (afterSteps steps w) := by
  induction steps generalizing w with
  | nil => rfl
  | cons step rest ih =>
    rw [List.cons_append, requests, ih, requests, List.append_assoc]
    rfl

theorem Request.answer_eq_of_recalls (h : Recalls past r.workspace.memo)
    (hordinary : r.IsOrdinary) :
    r.answer = .ok ((recalled past r.importer r.name).getD r.found) := by
  have hkept := h.kept r.importer r.name
  cases hrecalled : recalled past r.importer r.name with
  | some kept =>
    exact congrArg Prod.fst
      (resolveName_of_kept hordinary (hkept.trans hrecalled) r.fs r.workspace.resolver)
  | none => exact (resolveName_of_new hordinary (hkept.trans hrecalled)).1

/-- In every run the memo is what the requests up to now have left. An ordinary request has the
answer that the resolver gave at the first one of its pair; when it is not that one itself, it has
this answer with any resolver on any disk, and does no more than count. A request that is not
ordinary leaves the memo alone. A batch has the answers of its requests. -/
theorem requests_recall (options : CompilerOptions) (resolver : Resolver) (redirects : Redirects)
    (steps : List Step) (w : Workspace) (hw : w = new options resolver redirects) :
    Recalls (requests steps w) (afterSteps steps w).memo ∧
    (∀ (before : List Request) (r : Request) (later : List Request),
      requests steps w = before ++ r :: later → Recalls before r.workspace.memo ∧
      (r.IsOrdinary → r.answer = .ok ((recalled before r.importer r.name).getD r.found) ∧
        ∀ kept, recalled before r.importer r.name = some kept →
          ∀ (fs : FileSystem) (resolver : Resolver),
            resolveName fs r.importer r.name { r.workspace with resolver } =
              (.ok kept, { r.workspace with resolver, memo := r.workspace.memo.countHit })) ∧
      (¬ r.IsOrdinary → r.next.memo = r.workspace.memo)) ∧
    ∀ (front : List Step) (fs : FileSystem) (importer : Text) (names : List Text)
      (back : List Step), steps = front ++ .event (.ask fs (.resolve importer names)) :: back →
      (resolveNames fs importer names (afterSteps front w)).1 =
        (requestsFor fs importer names (afterSteps front w)).mapM Request.answer ∧
      ∃ later, requests steps w =
        requests front w ++ requestsFor fs importer names (afterSteps front w) ++ later := by
  have hstart : Recalls [] w.memo := hw ▸ recalls_empty
  have hthreads := threads_requests steps w
  refine ⟨hthreads.recalls hstart, ?_, ?_⟩
  · intro before r later hsplit
    rw [hsplit] at hthreads
    have hbefore : Recalls before r.workspace.memo := hthreads.of_append_cons.recalls hstart
    refine ⟨hbefore, ?_, Request.memo_next_of_not_isOrdinary⟩
    intro hordinary
    refine ⟨Request.answer_eq_of_recalls hbefore hordinary, ?_⟩
    intro kept hkept
    exact Request.resolveName_of_kept hordinary ((hbefore.kept _ _).trans hkept)
  · rintro front fs importer names back rfl
    refine ⟨resolveNames_eq_mapM fs importer names _, ?_⟩
    rw [requests_append, requests, ← List.append_assoc]
    exact ⟨_, rfl⟩

/-- A name that fails, and is asked for again when the resolver knows it and the file is written. -/
def sampleSteps : List Step :=
  [.event (.ask .empty (.resolve "a.ts".toList ["m".toList])),
    .replaceResolver (Resolver.ofTable [("m".toList, some ⟨"m.ts".toList, .ts, false, none⟩)]),
    .event (.write "a.ts".toList ['x']),
    .event (.ask .empty (.resolve "a.ts".toList ["m".toList, "./b".toList]))]

theorem requests_recall_failure :
    ∃ (before : List Request) (r : Request) (later : List Request),
      requests sampleSteps (new .empty (Resolver.ofTable []) Table.empty) =
        before ++ r :: later ∧
      r.found ≠ none ∧ r.answer = .ok none ∧
      (afterSteps sampleSteps (new .empty (Resolver.ofTable []) Table.empty)).memo.misses = 1 ∧
      (afterSteps sampleSteps (new .empty (Resolver.ofTable []) Table.empty)).memo.hits = 1 := by
  generalize hw : new .empty (Resolver.ofTable []) Table.empty = w
  have hlength : (requests sampleSteps w).length = 3 := by
    subst hw
    decide
  have hordinary : (requests sampleSteps w).map (fun r ↦ decide r.IsOrdinary) =
      [true, true, false] := by
    subst hw
    decide
  have hpairs : (requests sampleSteps w).map Request.pair = [("a.ts".toList, "m".toList),
      ("a.ts".toList, "m".toList), ("a.ts".toList, "./b".toList)] := by
    subst hw
    decide
  have hfound : (requests sampleSteps w).map Request.found =
      [none, some ⟨"m.ts".toList, .ts, false, none⟩, none] := by
    subst hw
    decide
  have hdistinct : (pairs (requests sampleSteps w)).eraseDups.length = 1 ∧
      (pairs (requests sampleSteps w)).length = 2 := by
    subst hw
    decide
  obtain ⟨hrecalls, hanswers, -⟩ :=
    requests_recall .empty (Resolver.ofTable []) Table.empty sampleSteps w hw.symm
  obtain ⟨first, r, last, hrequests⟩ := List.length_eq_three.mp hlength
  simp only [hrequests, List.map_cons, List.map_nil, List.cons.injEq, decide_eq_true_eq]
    at hordinary hpairs hfound
  have hrecalled : recalled [first] r.importer r.name = some none := by
    have hsame : first.IsOrdinary ∧ first.pair = (r.importer, r.name) :=
      ⟨hordinary.1, hpairs.1.trans hpairs.2.1.symm⟩
    rw [recalled, List.find?_singleton, if_pos (decide_eq_true hsame), Option.map_some, hfound.1]
  refine ⟨[first], r, [last], hrequests, ?_, ?_, hrecalls.misses.trans hdistinct.1, ?_⟩
  · rw [hfound.2.1]
    exact Option.some_ne_none _
  · rw [((hanswers [first] r [last] hrequests).2.1 hordinary.2.1).1, hrecalled, Option.getD_some]
  · have hhits := hrecalls.hits
    rw [hrecalls.misses, hdistinct.1, hdistinct.2] at hhits
    exact Nat.succ.inj hhits

end FencedCode.Workspace
