import FencedCode.Proofs.Compiler.Snapshot
import FencedCode.Proofs.Workspace.Recall

/-!
# Texts read from disk

Between two questions the disk may change as it likes. A text that was read from it once is read
again as it was, under every spelling of its name, until the file is written; a file that could not
be read is asked for anew. Manifests are read while names are resolved, and they count like all
other texts. A written file always has the text that was written last.
-/

namespace FencedCode

theorem ReadCache.read_fst (fs : FileSystem) (path : Text) (cache : ReadCache) :
    (cache.read fs path).1 = (cache.texts.get? path).or (fs.readText path) := by
  unfold read
  cases cache.texts.get? path with
  | some text => rfl
  | none => cases fs.readText path <;> rfl

namespace Workspace

/-- A question for the text of a file, with the disk and the workspace that it finds. -/
structure Reading where
  fs : FileSystem
  workspace : Workspace
  path : Text

namespace Reading

/-- The name of the file, whatever its spelling. -/
def key (r : Reading) : Text := Path.normalize r.path

/-- The text that is answered. -/
def answer (r : Reading) : Option Text := (read r.fs r.path r.workspace).1

/-- The workspace that the question leaves. -/
def next (r : Reading) : Workspace := (read r.fs r.path r.workspace).2

/-- The text, when the file is not a written one. -/
def diskText (r : Reading) : Option Text :=
  if r.workspace.isVirtual r.path then none else r.answer

variable {r : Reading}

theorem read_of_not_isVirtual (h : ¬ r.workspace.isVirtual r.path) :
    read r.fs r.path r.workspace = ((r.workspace.reads.read r.fs r.key).1,
      { r.workspace with reads := (r.workspace.reads.read r.fs r.key).2 }) := by
  have hnone : r.workspace.overlay.get? r.path = none := Option.not_isSome_iff_eq_none.mp h
  rw [read, hnone]
  rfl

theorem answer_of_not_isVirtual (h : ¬ r.workspace.isVirtual r.path) :
    r.answer = (r.workspace.reads.texts.get? r.key).or (r.fs.readText r.key) := by
  rw [answer, read_of_not_isVirtual h, ReadCache.read_fst]

theorem next_of_isVirtual (h : r.workspace.isVirtual r.path) : r.next = r.workspace := by
  obtain ⟨file, hfile⟩ := Option.isSome_iff_exists.mp h
  rw [next, read, hfile]

/-- A reading that fails leaves no trace. -/
theorem next_of_answer_eq_none (h : r.answer = none) : r.next = r.workspace := by
  by_cases hvirtual : r.workspace.isVirtual r.path
  · exact next_of_isVirtual hvirtual
  · rw [answer_of_not_isVirtual hvirtual, Option.or_eq_none_iff] at h
    rw [next, read_of_not_isVirtual hvirtual, ReadCache.read, h.1, h.2]

theorem reads_next_of_diskText_eq_none (h : r.diskText = none) :
    r.next.reads = r.workspace.reads := by
  unfold diskText at h
  split at h
  · rename_i hvirtual
    rw [next_of_isVirtual hvirtual]
  · rw [next_of_answer_eq_none h]

/-- A text from disk is remembered under the name of its file. -/
theorem reads_next_of_diskText {text : Text} (h : r.diskText = some text) :
    (∀ key, r.next.reads.texts.get? key = (r.workspace.reads.texts.insert r.key text).get? key) ∧
      r.next.reads.texts.keys = (r.workspace.reads.texts.insert r.key text).keys := by
  unfold diskText at h
  split at h
  · exact absurd h (Option.some_ne_none text).symm
  · rename_i hdisk
    rw [answer_of_not_isVirtual hdisk] at h
    rw [next, read_of_not_isVirtual hdisk]
    cases hcached : r.workspace.reads.texts.get? r.key with
    | some cached =>
      rw [hcached, Option.some_or] at h
      have hmem : r.key ∈ r.workspace.reads.texts.keys := by
        rw [← Table.contains_iff, Table.contains, hcached, Option.isSome_some]
      rw [ReadCache.read_of_cached hcached, Table.keys_insert, if_pos hmem]
      refine ⟨fun key ↦ ?_, rfl⟩
      rw [Table.get?_insert]
      split
      · rename_i hkey
        rw [← hkey, hcached, h]
      · rfl
    | none =>
      rw [hcached, Option.none_or] at h
      rw [ReadCache.read, hcached, h]
      exact ⟨fun _ ↦ rfl, rfl⟩

end Reading

/-! ## What a cache holds -/

/-- The text that the disk first had for the name. -/
def firstText (past : List Reading) (key : Text) : Option Text :=
  past.findSome? fun r ↦ if r.key = key then r.diskText else none

/-- The names of the files of which the disk had a text, in order. -/
def readKeys (past : List Reading) : List Text :=
  (past.filter fun r ↦ r.diskText.isSome).map Reading.key

/-- The cache is what the readings have left: of each file that was read, the text that it first
had. -/
structure Remembers (past : List Reading) (cache : ReadCache) : Prop where
  texts : ∀ key, cache.texts.get? key = firstText past key
  keys : cache.texts.keys = (readKeys past).eraseDups

variable {past before later : List Reading} {r : Reading} {cache : ReadCache}

theorem firstText_append (past others : List Reading) (key : Text) :
    firstText (past ++ others) key = (firstText past key).or (firstText others key) :=
  List.findSome?_append

theorem firstText_singleton (r : Reading) (key : Text) :
    firstText [r] key = if r.key = key then r.diskText else none := List.findSome?_singleton

theorem readKeys_append (past others : List Reading) :
    readKeys (past ++ others) = readKeys past ++ readKeys others := by
  rw [readKeys, List.filter_append, List.map_append, readKeys, readKeys]

theorem readKeys_singleton (r : Reading) :
    readKeys [r] = if r.diskText.isSome then [r.key] else [] := by
  rw [readKeys, List.filter_singleton]
  cases r.diskText.isSome <;> rfl

theorem remembers_empty : Remembers [] ReadCache.empty := ⟨fun _ ↦ rfl, rfl⟩

theorem Remembers.answer_eq (h : Remembers past r.workspace.reads)
    (hdisk : ¬ r.workspace.isVirtual r.path) :
    r.answer = (firstText past r.key).or (r.fs.readText r.key) := by
  rw [Reading.answer_of_not_isVirtual hdisk, h.texts]

/-- A text that is read from disk is the one that the disk first had. -/
theorem Remembers.firstText_append_singleton (h : Remembers past r.workspace.reads) {text : Text}
    (htext : r.diskText = some text) (key : Text) : firstText (past ++ [r]) key =
      if r.key = key then some text else firstText past key := by
  rw [firstText_append, firstText_singleton, htext]
  split
  · rename_i hkey
    cases hfirst : firstText past key with
    | none => rfl
    | some first =>
      unfold Reading.diskText at htext
      split at htext
      · exact absurd htext (Option.some_ne_none text).symm
      · rename_i hdisk
        rw [h.answer_eq hdisk, hkey, hfirst, Option.some_or] at htext
        rw [Option.some_or, htext]
  · rw [Option.or_none]

/-- The cache stays what the readings have left, reading by reading. -/
theorem Remembers.append (h : Remembers past r.workspace.reads) :
    Remembers (past ++ [r]) r.next.reads := by
  cases htext : r.diskText with
  | none =>
    rw [Reading.reads_next_of_diskText_eq_none htext]
    refine ⟨fun key ↦ ?_, ?_⟩
    · rw [h.texts, firstText_append, firstText_singleton, htext, ite_self, Option.or_none]
    · rw [h.keys, readKeys_append, readKeys_singleton, htext, Option.isSome_none,
        if_neg Bool.false_ne_true, List.append_nil]
  | some text =>
    obtain ⟨hget, hkeys⟩ := Reading.reads_next_of_diskText htext
    refine ⟨fun key ↦ ?_, ?_⟩
    · rw [hget, Table.get?_insert, h.texts, h.firstText_append_singleton htext]
    · rw [hkeys, Table.keys_insert, h.keys, readKeys_append, readKeys_singleton, htext,
        Option.isSome_some, if_pos rfl, eraseDups_append_singleton]
      by_cases hmem : r.key ∈ readKeys past
      · rw [if_pos hmem, if_pos (List.mem_eraseDups.mpr hmem)]
      · rw [if_neg hmem, if_neg (mt List.mem_eraseDups.mp hmem)]

/-! ## Readings in a row -/

/-- The readings account for all that the cache learns between two moments. -/
def Accounts (first : ReadCache) (readings : List Reading) (last : ReadCache) : Prop :=
  ∀ past, Remembers past first →
    (∀ before r later, readings = before ++ r :: later →
      Remembers (past ++ before) r.workspace.reads) ∧
    Remembers (past ++ readings) last

variable {first middle last : ReadCache} {front back : List Reading}

theorem Accounts.nil (cache : ReadCache) : Accounts cache [] cache := by
  intro past hpast
  refine ⟨fun before r later h ↦ absurd h (by simp), ?_⟩
  rwa [List.append_nil]

theorem Accounts.singleton (r : Reading) : Accounts r.workspace.reads [r] r.next.reads := by
  intro past hpast
  refine ⟨fun before d later h ↦ ?_, hpast.append⟩
  obtain ⟨rfl, heq⟩ | ⟨_, heq⟩ := List.singleton_eq_append_iff.mp h
  · obtain rfl : r = d := (List.cons.inj heq.symm).1
    rwa [List.append_nil]
  · exact absurd heq (List.cons_ne_nil _ _)

theorem Accounts.append (h : Accounts first front middle) (h' : Accounts middle back last) :
    Accounts first (front ++ back) last := by
  intro past hpast
  obtain ⟨hfront, hmiddle⟩ := h past hpast
  obtain ⟨hback, hlast⟩ := h' _ hmiddle
  rw [List.append_assoc] at hlast
  refine ⟨fun before r later hsplit ↦ ?_, hlast⟩
  rcases List.append_eq_append_iff.mp hsplit with ⟨start, rfl, hstart⟩ | ⟨rest, rfl, hrest⟩
  · rw [← List.append_assoc]
    exact hback start r later hstart
  · cases rest with
    | nil =>
      have hstart := hback [] r later hrest.symm
      rwa [List.append_nil, List.append_nil] at hstart
    | cons d rest =>
      obtain ⟨rfl, -⟩ := List.cons.inj hrest
      exact hfront before r rest rfl

/-! ## Readings of a run -/

/-- The readings of one question about files. -/
def readingsOfRequest (fs : FileSystem) (w : Workspace) : FileRequest → List Reading
  | .read path => [⟨fs, w, path⟩]
  | .fileExists _ | .folderExists _ => []

/-- The readings of a lookup, in order. -/
def readingsOf (fs : FileSystem) {α : Type} : Lookup α → Workspace → List Reading
  | .done _, _ => []
  | .ask request next, w => readingsOfRequest fs w request ++
      readingsOf fs (next (lookUp fs request w).1) (lookUp fs request w).2

/-- The readings that are made to resolve a name. -/
def Request.readings (r : Request) : List Reading :=
  match r.workspace.redirects.get? r.name with
  | some redirect => readingsOf r.fs (r.workspace.resolver redirect.target r.importer) r.workspace
  | none =>
    if Path.isRelative r.name ∧ r.workspace.isVirtual r.importer then
      readingsOf r.fs (Lookup.fileOrFolder (relativeTarget r.importer r.name)) r.workspace
    else if r.workspace.memo.kept? r.importer r.name = none then
      readingsOf r.fs (r.workspace.resolver r.name r.importer) r.workspace
    else []

namespace Event

/-- The readings of an event in the workspace that it finds. -/
def readings (w : Workspace) : Event → List Reading
  | ask fs (.file request) => readingsOfRequest fs w request
  | ask fs (.resolve importer names) => (requestsFor fs importer names w).flatMap Request.readings
  | _ => []

end Event

/-- The readings of a run, in order. -/
def readingsDuring : List Event → Workspace → List Reading
  | [], _ => []
  | event :: rest, w => event.readings w ++ readingsDuring rest (event.apply w)

variable {fs : FileSystem} {w w' : Workspace}

theorem accounts_readingsOfRequest (fs : FileSystem) (w : Workspace) (request : FileRequest) :
    Accounts w.reads (readingsOfRequest fs w request) (lookUp fs request w).2.reads := by
  cases request with
  | fileExists path => exact .nil _
  | folderExists path => exact .nil _
  | read path => exact .singleton ⟨fs, w, path⟩

theorem accounts_readingsOf (fs : FileSystem) {α : Type} (lookup : Lookup α) (w : Workspace) :
    Accounts w.reads (readingsOf fs lookup w) (runLookup fs lookup w).2.reads := by
  induction lookup generalizing w with
  | done a => exact .nil _
  | ask request next ih => exact (accounts_readingsOfRequest fs w request).append (ih _ _)

theorem Request.accounts_readings (r : Request) :
    Accounts r.workspace.reads r.readings r.next.reads := by
  unfold readings next
  cases hredirect : r.workspace.redirects.get? r.name with
  | some redirect =>
    rw [resolveName_of_redirect hredirect]
    exact accounts_readingsOf _ _ _
  | none =>
    dsimp only
    by_cases hroute : Path.isRelative r.name ∧ r.workspace.isVirtual r.importer
    · rw [if_pos hroute, resolveName_of_relative hredirect hroute.1 hroute.2]
      exact accounts_readingsOf _ _ _
    · rw [if_neg hroute, resolveName_of_ordinary hredirect hroute]
      cases hkept : r.workspace.memo.kept? r.importer r.name with
      | some kept =>
        rw [if_neg (Option.some_ne_none kept), resolveOrdinary_of_kept hkept]
        exact .nil _
      | none =>
        rw [if_pos rfl, resolveOrdinary_of_new hkept]
        exact accounts_readingsOf _ _ _

theorem accounts_requestsFor (fs : FileSystem) (importer : Text) (names : List Text)
    (w : Workspace) : Accounts w.reads ((requestsFor fs importer names w).flatMap Request.readings)
      (resolveNames fs importer names w).2.reads := by
  induction names generalizing w with
  | nil => exact .nil _
  | cons name rest ih =>
    have hfirst := Request.accounts_readings ⟨fs, w, importer, name⟩
    rcases hname : resolveName fs importer name w with ⟨e | found, w'⟩
    · obtain rfl : Request.next ⟨fs, w, importer, name⟩ = w' := congrArg Prod.snd hname
      rw [resolveNames_cons_of_error hname, requestsFor_cons_of_error hname, List.flatMap_singleton]
      exact hfirst
    · obtain rfl : Request.next ⟨fs, w, importer, name⟩ = w' := congrArg Prod.snd hname
      rw [resolveNames_cons_of_ok hname, requestsFor_cons_of_ok hname, List.flatMap_cons]
      exact hfirst.append (ih _)

theorem Event.accounts_readings (w : Workspace) (event : Event) :
    Accounts w.reads (event.readings w) (event.apply w).reads := by
  cases event with
  | write path text => exact .nil _
  | setScripts names => exact .nil _
  | ask fs inquiry =>
    cases inquiry with
    | options => exact .nil _
    | scripts => exact .nil _
    | version path => exact .nil _
    | file request => exact accounts_readingsOfRequest fs w request
    | resolve importer names => exact accounts_requestsFor fs importer names w

theorem accounts_readingsDuring (events : List Event) (w : Workspace) :
    Accounts w.reads (readingsDuring events w) (after events w).reads := by
  induction events generalizing w with
  | nil => exact .nil _
  | cons event rest ih => exact (event.accounts_readings w).append (ih _)

theorem readingsDuring_append (events others : List Event) (w : Workspace) :
    readingsDuring (events ++ others) w =
      readingsDuring events w ++ readingsDuring others (after events w) := by
  induction events generalizing w with
  | nil => rfl
  | cons event rest ih =>
    rw [List.cons_append, readingsDuring, ih, readingsDuring, List.append_assoc]
    rfl

/-! ## Where readings are made -/

theorem agrees_of_mem_readingsOf {α : Type} {lookup : Lookup α}
    (h : r ∈ readingsOf fs lookup w) : r.fs = fs ∧ w.Agrees r.workspace := by
  induction lookup generalizing w with
  | done a => exact absurd h List.not_mem_nil
  | ask request next ih =>
    rcases List.mem_append.mp h with hfirst | hrest
    · cases request with
      | fileExists path => exact absurd hfirst List.not_mem_nil
      | folderExists path => exact absurd hfirst List.not_mem_nil
      | read path =>
        rw [List.mem_singleton.mp hfirst]
        exact ⟨rfl, Agrees.refl w⟩
    · obtain ⟨hfs, hagrees⟩ := ih _ hrest
      exact ⟨hfs, (onlyAsks_lookUp fs request w).trans hagrees⟩

theorem Request.agrees_of_mem_readings {q : Request} (h : r ∈ q.readings) :
    r.fs = q.fs ∧ q.workspace.Agrees r.workspace := by
  unfold readings at h
  split at h
  · exact agrees_of_mem_readingsOf h
  · split at h
    · exact agrees_of_mem_readingsOf h
    · split at h
      · exact agrees_of_mem_readingsOf h
      · exact absurd h List.not_mem_nil

theorem agrees_of_mem_requestsFor {importer : Text} {names : List Text} {q : Request}
    (h : q ∈ requestsFor fs importer names w) : q.fs = fs ∧ w.Agrees q.workspace := by
  induction names generalizing w with
  | nil => exact absurd h List.not_mem_nil
  | cons name rest ih =>
    rcases hname : resolveName fs importer name w with ⟨e | found, w'⟩
    · rw [requestsFor_cons_of_error hname, List.mem_singleton] at h
      rw [h]
      exact ⟨rfl, Agrees.refl w⟩
    · rw [requestsFor_cons_of_ok hname] at h
      rcases List.mem_cons.mp h with rfl | hrest
      · exact ⟨rfl, Agrees.refl w⟩
      · obtain ⟨hfs, hagrees⟩ := ih hrest
        obtain rfl : (resolveName fs importer name w).2 = w' := congrArg Prod.snd hname
        exact ⟨hfs, (onlyAsks_resolveName fs importer name w).trans hagrees⟩

/-- The readings of an event are made on the disk of the event, and no file is written meanwhile. -/
theorem Event.agrees_of_mem_readings {event : Event} (h : r ∈ event.readings w) :
    (∃ inquiry, event = .ask r.fs inquiry) ∧ w.Agrees r.workspace := by
  cases event with
  | write path text => exact absurd h List.not_mem_nil
  | setScripts names => exact absurd h List.not_mem_nil
  | ask fs inquiry =>
    cases inquiry with
    | options => exact absurd h List.not_mem_nil
    | scripts => exact absurd h List.not_mem_nil
    | version path => exact absurd h List.not_mem_nil
    | file request =>
      cases request with
      | fileExists path => exact absurd h List.not_mem_nil
      | folderExists path => exact absurd h List.not_mem_nil
      | read path =>
        rw [List.mem_singleton.mp h]
        exact ⟨⟨_, rfl⟩, Agrees.refl w⟩
    | resolve importer names =>
      obtain ⟨q, hq, hr⟩ := List.mem_flatMap.mp h
      obtain ⟨hfs, hagrees⟩ := agrees_of_mem_requestsFor hq
      obtain ⟨hsame, hinside⟩ := Request.agrees_of_mem_readings hr
      rw [hsame, hfs]
      exact ⟨⟨_, rfl⟩, hagrees.trans hinside⟩

/-! ## Written files -/

theorem isVirtual_iff_mem_keys {path : Text} :
    w.isVirtual path ↔ Path.normalize path ∈ w.overlay.files.keys := Table.contains_iff _ _

theorem keys_prefix_of_mem_readingsDuring {events : List Event} (h : r ∈ readingsDuring events w) :
    w.overlay.files.keys <+: r.workspace.overlay.files.keys := by
  induction events generalizing w with
  | nil => exact absurd h List.not_mem_nil
  | cons event rest ih =>
    rcases List.mem_append.mp h with hfirst | hrest
    · rw [(Event.agrees_of_mem_readings hfirst).2.overlay]
    · have hstep := w.overlay.keys_prefix_keys_writeAll event.written?.toList
      rw [← Event.overlay_apply] at hstep
      exact hstep.trans (ih hrest)

/-- Later readings find all the files that earlier ones have found written. -/
theorem pairwise_readingsDuring (events : List Event) (w : Workspace) :
    (readingsDuring events w).Pairwise fun d r ↦
      d.workspace.overlay.files.keys <+: r.workspace.overlay.files.keys := by
  induction events generalizing w with
  | nil => exact List.Pairwise.nil
  | cons event rest ih =>
    have hstep := w.overlay.keys_prefix_keys_writeAll event.written?.toList
    rw [← Event.overlay_apply] at hstep
    refine List.pairwise_append.mpr ⟨List.pairwise_of_forall_mem_list fun d hd r hr ↦ ?_, ih _,
      fun d hd r hr ↦ ?_⟩
    · rw [(Event.agrees_of_mem_readings hd).2.overlay, (Event.agrees_of_mem_readings hr).2.overlay]
    · rw [(Event.agrees_of_mem_readings hd).2.overlay]
      exact hstep.trans (keys_prefix_of_mem_readingsDuring hr)

/-- A file has the text of the last write under one of its names. -/
theorem text?_after_of_last_write {front back : List Event} {name text path : Text}
    (hname : Path.normalize name = Path.normalize path)
    (hlast : ∀ other content, .write other content ∈ back →
      Path.normalize other ≠ Path.normalize path) (w : Workspace) :
    (after (front ++ .write name text :: back) w).overlay.text? path = some text := by
  rw [overlay_after, List.filterMap_append, List.filterMap_cons]
  refine Overlay.text?_writeAll_append_cons hname (fun e he ↦ ?_) _ _ _
  obtain ⟨event, hevent, hwritten⟩ := List.mem_filterMap.mp he
  exact hlast e.1 e.2 (Event.written?_eq_some_iff.mp hwritten ▸ hevent)

/-! ## Texts that stay -/

theorem Reading.diskText_of_not_isVirtual (h : ¬ r.workspace.isVirtual r.path) :
    r.diskText = r.answer := if_neg h

/-- Of a file that has been read, the first text is the one that every reading had. -/
theorem firstText_of_mem (hpast : ∀ front d back, past = front ++ d :: back →
    Remembers front d.workspace.reads) {text : Text} (hr : r ∈ past)
    (htext : r.diskText = some text) : firstText past r.key = some text := by
  obtain ⟨front, back, rfl⟩ := List.append_of_mem hr
  rw [List.append_cons, firstText_append,
    (hpast front r back rfl).firstText_append_singleton htext, if_pos rfl, Option.some_or]

theorem firstText_eq_none {key : Text} (h : ∀ d ∈ past, d.key = key → d.diskText = none) :
    firstText past key = none := by
  refine List.findSome?_eq_none_iff.mpr fun d hd ↦ ?_
  split
  · rename_i hkey
    exact h d hd hkey
  · rfl

theorem remembers_of_split {events : List Event} (hcache : w.reads = ReadCache.empty)
    (h : readingsDuring events w = before ++ r :: later) :
    Remembers before r.workspace.reads ∧
      ∀ front d back, before = front ++ d :: back → Remembers front d.workspace.reads := by
  have haccounts := accounts_readingsDuring events w
  rw [hcache] at haccounts
  obtain ⟨hsplits, -⟩ := haccounts [] remembers_empty
  refine ⟨hsplits before r later h, ?_⟩
  rintro front d back rfl
  exact hsplits front d (back ++ r :: later) (by rw [h, List.append_assoc, List.cons_append])

theorem not_isVirtual_of_mem_before {events : List Event} {d : Reading}
    (h : readingsDuring events w = before ++ r :: later) (hd : d ∈ before) (hkey : d.key = r.key)
    (hdisk : ¬ r.workspace.isVirtual r.path) : ¬ d.workspace.isVirtual d.path := by
  have hpairs := pairwise_readingsDuring events w
  rw [h, List.pairwise_append] at hpairs
  have hkeys := hpairs.2.2 d hd r List.mem_cons_self
  have hname : Path.normalize d.path = Path.normalize r.path := hkey
  rw [isVirtual_iff_mem_keys, ← hname] at hdisk
  exact fun hvirtual ↦ hdisk (hkeys.subset (isVirtual_iff_mem_keys.mp hvirtual))

theorem size_reads_after {events : List Event} (hcache : w.reads = ReadCache.empty) :
    (after events w).reads.size = (readKeys (readingsDuring events w)).eraseDups.length := by
  have haccounts := accounts_readingsDuring events w
  rw [hcache] at haccounts
  obtain ⟨-, hafter⟩ := haccounts [] remembers_empty
  rw [List.nil_append] at hafter
  rw [← hafter.keys, Table.keys, List.length_map]
  rfl

/-- In every run a text that was read from disk once is what every later reading of the file has,
under whatever spelling, as long as the file is not written. Before that, a reading has what the
disk has at that moment, and a reading that fails leaves no trace. A written file has the text that
was written last. The number of texts that are remembered is the number of files that were read from
disk, and it never falls. The readings are those of the questions for texts, among others. -/
theorem readings_stable (options : CompilerOptions) (resolver : Resolver) (redirects : Redirects)
    (events : List Event) (w : Workspace) (hw : w = new options resolver redirects) :
    (∀ before r later, readingsDuring events w = before ++ r :: later →
      (¬ r.workspace.isVirtual r.path →
        (∀ d ∈ before, d.key = r.key → ∀ text, d.answer = some text → r.answer = some text) ∧
        ((∀ d ∈ before, d.key = r.key → d.answer = none) → r.answer = r.fs.readText r.key)) ∧
      (r.answer = none → r.next = r.workspace)) ∧
    (∀ front event back, events = front ++ event :: back → ∀ r ∈ event.readings (after front w),
      (∃ inquiry, event = .ask r.fs inquiry) ∧
      ∀ earlier name text others, front = earlier ++ .write name text :: others →
        Path.normalize name = r.key →
        (∀ other content, .write other content ∈ others → Path.normalize other ≠ r.key) →
          r.answer = some text) ∧
    (∀ front fs path back, events = front ++ .ask fs (.file (.read path)) :: back →
      ∃ later, readingsDuring events w =
        readingsDuring front w ++ ⟨fs, after front w, path⟩ :: later) ∧
    (after events w).reads.size = (readKeys (readingsDuring events w)).eraseDups.length ∧
    ∀ front back, events = front ++ back →
      (after front w).reads.size ≤ (after events w).reads.size := by
  have hcache : w.reads = ReadCache.empty := by rw [hw, new]
  refine ⟨?_, ?_, ?_, size_reads_after hcache, ?_⟩
  · intro before r later hsplit
    refine ⟨fun hdisk ↦ ?_, Reading.next_of_answer_eq_none⟩
    obtain ⟨hbefore, hall⟩ := remembers_of_split hcache hsplit
    have hsame : ∀ d ∈ before, d.key = r.key → d.diskText = d.answer := fun d hd hkey ↦
      Reading.diskText_of_not_isVirtual (not_isVirtual_of_mem_before hsplit hd hkey hdisk)
    rw [hbefore.answer_eq hdisk]
    constructor
    · intro d hd hkey text htext
      rw [← hkey, firstText_of_mem hall hd ((hsame d hd hkey).trans htext), Option.some_or]
    · intro hfailed
      have hnone : firstText before r.key = none := firstText_eq_none fun d hd hkey ↦
        (hsame d hd hkey).trans (hfailed d hd hkey)
      rw [hnone, Option.none_or]
  · intro front event back _ r hr
    obtain ⟨hevent, hagrees⟩ := Event.agrees_of_mem_readings hr
    refine ⟨hevent, fun earlier name text others hfront hname hlast ↦ ?_⟩
    have htext : r.workspace.overlay.text? r.path = some text := by
      rw [hagrees.text?, hfront]
      exact text?_after_of_last_write hname hlast w
    rw [Reading.answer, read_of_text? htext]
  · rintro front fs path back rfl
    rw [readingsDuring_append, readingsDuring]
    exact ⟨_, rfl⟩
  · rintro front back rfl
    rw [size_reads_after hcache, size_reads_after hcache, readingsDuring_append, readKeys_append,
      List.eraseDups_append, List.length_append]
    exact Nat.le_add_right _ _

/-- A disk with a folder that has a manifest, and a text for every file. -/
def sampleDisk (text : Text) : FileSystem :=
  ⟨fun _ ↦ false, fun path ↦ path = "/p/lib".toList, fun _ ↦ some text, fun _ ↦ none⟩

/-- A manifest that was read for a resolution is read again as it was, though the disk has changed,
and under another spelling of its name. -/
theorem readings_stable_sampleDisk :
    (read (sampleDisk ['y']) "/p//lib/package.json".toList
      (after [.ask (sampleDisk ['x']) (.resolve "/p/a.ts".toList ["./lib".toList])]
        (ofOptions .empty Table.empty))).1 = some ['x'] ∧
    (after [.ask (sampleDisk ['x']) (.resolve "/p/a.ts".toList ["./lib".toList]),
      .ask (sampleDisk ['y']) (.file (.read "/p//lib/package.json".toList))]
        (ofOptions .empty Table.empty)).reads.size = 1 := by
  generalize hw : ofOptions .empty Table.empty = w
  have hanswers : (readingsDuring [.ask (sampleDisk ['x']) (.resolve "/p/a.ts".toList
      ["./lib".toList])] w).map (fun d ↦ (d.key, d.answer)) =
        [("/p/lib/package.json".toList, some ['x'])] := by
    subst hw
    decide +kernel
  have hkeys : readKeys (readingsDuring [.ask (sampleDisk ['x']) (.resolve "/p/a.ts".toList
      ["./lib".toList]), .ask (sampleDisk ['y']) (.file (.read "/p//lib/package.json".toList))] w) =
        ["/p/lib/package.json".toList, "/p/lib/package.json".toList] := by
    subst hw
    decide +kernel
  obtain ⟨hstable, -, hmade, hsize, -⟩ := readings_stable .empty (Resolver.ofOptions .empty)
    Table.empty [.ask (sampleDisk ['x']) (.resolve "/p/a.ts".toList ["./lib".toList]),
      .ask (sampleDisk ['y']) (.file (.read "/p//lib/package.json".toList))] w hw.symm
  refine ⟨?_, by rw [hsize, hkeys]; decide⟩
  obtain ⟨later, hlater⟩ := hmade [_] _ _ [] rfl
  obtain ⟨⟨hsame, -⟩, -⟩ := (hstable _ _ _ hlater).imp_left fun h ↦ h (by subst hw; decide +kernel)
  have hmem : ("/p/lib/package.json".toList, some ['x']) ∈ (readingsDuring
      [.ask (sampleDisk ['x']) (.resolve "/p/a.ts".toList ["./lib".toList])] w).map
        (fun d ↦ (d.key, d.answer)) := by
    rw [hanswers]
    exact List.mem_singleton_self _
  obtain ⟨d, hd, hpair⟩ := List.mem_map.mp hmem
  obtain ⟨hkey, hanswer⟩ := Prod.mk.inj hpair
  have hname : "/p/lib/package.json".toList = Path.normalize "/p//lib/package.json".toList := by
    decide
  exact hsame d hd (hkey.trans hname) ['x'] hanswer

end Workspace

end FencedCode
