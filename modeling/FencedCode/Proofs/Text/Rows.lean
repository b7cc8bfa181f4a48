import FencedCode.Text.Rows

/-!
# Rows and lines

A text is empty, one row without a line feed, or a terminated row in front of another text.
Induction along these cases gives the laws of `rows`, which keep their line feeds, and of
`lines`, which do not. Both split at the end of a terminated text, and the lines are numbered by
the line feeds before them.
-/

namespace FencedCode.Text

/-- A text is empty, one row without a line feed, or a terminated row in front of another text. -/
@[elab_as_elim]
theorem row_cases {motive : Text → Prop} (s : Text) (nil : motive [])
    (last : ∀ row, row ≠ [] → '\n' ∉ row → motive row)
    (cons : ∀ body rest, '\n' ∉ body → motive (body ++ '\n' :: rest)) : motive s := by
  by_cases hmem : '\n' ∈ s
  · obtain ⟨body, rest, rfl, hbody⟩ := List.eq_append_cons_of_mem hmem
    exact cons body rest hbody
  · by_cases hs : s = []
    · rw [hs]
      exact nil
    · exact last s hs hmem

/-- Induction on a text, one terminated row at a time. -/
@[elab_as_elim]
theorem row_induction {motive : Text → Prop} (s : Text) (nil : motive [])
    (last : ∀ row, row ≠ [] → '\n' ∉ row → motive row)
    (cons : ∀ body rest, '\n' ∉ body → motive rest → motive (body ++ '\n' :: rest)) :
    motive s := by
  induction hn : s.length using Nat.strongRecOn generalizing s with
  | ind n ih =>
    cases s using row_cases with
    | nil => exact nil
    | last _ hne hnot => exact last s hne hnot
    | cons body rest hbody =>
      have hlt : rest.length < n := by
        rw [← hn, List.length_append, List.length_cons]
        omega
      exact cons body rest hbody (ih rest.length hlt rest rfl)

theorem rows_body_append {body : Text} (h : '\n' ∉ body) (s : Text) :
    rows (body ++ '\n' :: s) = (body ++ ['\n']) :: rows s := by
  induction body with
  | nil => simp [rows]
  | cons c body ih =>
    have hc := List.ne_of_not_mem_cons h
    have hbody := List.not_mem_of_not_mem_cons h
    rw [List.cons_append, rows, if_neg (Ne.symm hc), ih hbody, List.cons_append]

/-- A text without a line feed begins the first row, when a line feed comes behind it. -/
theorem exists_prefix_rows_append {s t : Text} (hs : '\n' ∉ s) (ht : '\n' ∈ t) :
    ∃ row rest, rows (s ++ t) = row :: rest ∧ s <+: row := by
  obtain ⟨body, rest, rfl, hbody⟩ := List.eq_append_cons_of_mem ht
  have hfirst : '\n' ∉ s ++ body := by
    rw [List.mem_append, not_or]
    exact ⟨hs, hbody⟩
  rw [← List.append_assoc, rows_body_append hfirst]
  refine ⟨s ++ body ++ ['\n'], rows rest, rfl, ?_⟩
  rw [List.append_assoc]
  exact List.prefix_append s _

theorem rows_of_notMem {s : Text} (hs : s ≠ []) (h : '\n' ∉ s) : rows s = [s] := by
  induction s with
  | nil => exact absurd rfl hs
  | cons c s ih =>
    have hc := List.ne_of_not_mem_cons h
    have hrest := List.not_mem_of_not_mem_cons h
    rw [rows, if_neg (Ne.symm hc)]
    by_cases hnil : s = []
    · rw [hnil, rows]
    · rw [ih hnil hrest]

theorem ne_nil_of_mem_rows {code row : Text} (h : row ∈ rows code) : row ≠ [] := by
  induction code using row_induction with
  | nil => exact absurd h List.not_mem_nil
  | last last hne hnot =>
    rw [rows_of_notMem hne hnot] at h
    exact List.mem_singleton.mp h ▸ hne
  | cons body rest hbody ih =>
    rw [rows_body_append hbody] at h
    rcases List.mem_cons.mp h with rfl | hrest
    · exact List.concat_ne_nil '\n' body
    · exact ih hrest

/-- Every row of the text ends with a line feed. -/
def Terminated (s : Text) : Prop := ∀ c ∈ s.getLast?, c = '\n'

theorem terminated_nil : Terminated [] := by simp [Terminated]

@[simp] theorem terminated_append_singleton (s : Text) : Terminated (s ++ ['\n']) := by
  simp [Terminated]

theorem Terminated.exists_append {s : Text} (h : Terminated s) (hs : s ≠ []) :
    ∃ t, s = t ++ ['\n'] := by
  refine ⟨s.dropLast, ?_⟩
  have hlast := h _ (List.getLast?_eq_some_getLast hs)
  rw [← hlast, List.dropLast_concat_getLast hs]

theorem Terminated.append {s t : Text} (hs : Terminated s) (ht : Terminated t) :
    Terminated (s ++ t) := by
  by_cases hnil : t = []
  · simpa [hnil] using hs
  · obtain ⟨u, rfl⟩ := ht.exists_append hnil
    rw [← List.append_assoc]
    exact terminated_append_singleton _

/-- A terminated text can only be the last piece of a longer one or a tail of it. -/
theorem Terminated.of_append {s t : Text} (h : Terminated (s ++ t)) : Terminated t := by
  intro c hc
  apply h
  rw [List.getLast?_append, Option.mem_def.mp hc]
  rfl

theorem terminated_body_append_iff {body s : Text} :
    Terminated (body ++ '\n' :: s) ↔ Terminated s := by
  have happend : body ++ '\n' :: s = (body ++ ['\n']) ++ s := by simp
  rw [happend]
  exact ⟨Terminated.of_append, (terminated_append_singleton body).append⟩

/-- A text ends with a piece of a row, which may be empty, behind terminated rows. -/
theorem exists_terminated_append (s : Text) :
    ∃ front row, s = front ++ row ∧ Terminated front ∧ '\n' ∉ row := by
  induction s using row_induction with
  | nil => exact ⟨[], [], rfl, terminated_nil, List.not_mem_nil⟩
  | last row _ hnot => exact ⟨[], row, rfl, terminated_nil, hnot⟩
  | cons body rest _ ih =>
    obtain ⟨front, row, rfl, hfront, hrow⟩ := ih
    exact ⟨body ++ '\n' :: front, row, by simp, terminated_body_append_iff.mpr hfront, hrow⟩

theorem not_terminated_of_notMem {s : Text} (hs : s ≠ []) (h : '\n' ∉ s) : ¬ Terminated s := by
  intro hterm
  obtain ⟨t, rfl⟩ := hterm.exists_append hs
  simp at h

/-- The rows split where a terminated text ends. -/
theorem rows_append {s : Text} (h : Terminated s) (t : Text) :
    rows (s ++ t) = rows s ++ rows t := by
  induction s using row_induction with
  | nil => rfl
  | last row hne hnot => exact absurd h (not_terminated_of_notMem hne hnot)
  | cons body rest hbody ih =>
    rw [List.append_assoc, List.cons_append, rows_body_append hbody, rows_body_append hbody,
      ih (terminated_body_append_iff.mp h), List.cons_append]

/-- The rows of terminated pieces, none of which has a line feed inside. -/
theorem rows_flatMap {ι : Type} (piece : ι → Text) (items : List ι)
    (h : ∀ i ∈ items, '\n' ∉ piece i) :
    rows (items.flatMap fun i ↦ piece i ++ ['\n']) = items.map fun i ↦ piece i ++ ['\n'] := by
  induction items with
  | nil => rfl
  | cons i items ih =>
    have hi := h i List.mem_cons_self
    rw [List.flatMap_cons, List.append_assoc, List.singleton_append, rows_body_append hi,
      ih fun j hj ↦ h j (List.mem_cons_of_mem i hj), List.map_cons]

/-- Rows with a row behind them make up a terminated text. -/
theorem terminated_flatten_of_rows_eq_append {s : Text} {before after : List Text}
    (h : rows s = before ++ after) (hafter : after ≠ []) : Terminated before.flatten := by
  induction s using row_induction generalizing before with
  | nil => exact absurd (List.append_eq_nil_iff.mp h.symm).2 hafter
  | last row hne hnot =>
    cases before with
    | nil => exact terminated_nil
    | cons _ before =>
      rw [rows_of_notMem hne hnot, List.cons_append] at h
      exact absurd (List.append_eq_nil_iff.mp (List.cons.inj h).2.symm).2 hafter
  | cons body rest hbody ih =>
    cases before with
    | nil => exact terminated_nil
    | cons row before =>
      rw [rows_body_append hbody, List.cons_append] at h
      obtain ⟨rfl, hrest⟩ := List.cons.inj h
      rw [List.flatten_cons]
      exact (terminated_append_singleton body).append (ih hrest)

/-- A row ends with a line feed, or has none. -/
theorem terminated_or_notMem {s row : Text} (h : row ∈ rows s) : Terminated row ∨ '\n' ∉ row := by
  induction s using row_induction with
  | nil => exact absurd h List.not_mem_nil
  | last last hne hnot =>
    rw [rows_of_notMem hne hnot] at h
    exact .inr (List.mem_singleton.mp h ▸ hnot)
  | cons body rest hbody ih =>
    rw [rows_body_append hbody] at h
    rcases List.mem_cons.mp h with rfl | hrest
    · exact .inl (terminated_append_singleton body)
    · exact ih hrest

/-- A row without a line feed is the last one. -/
theorem eq_nil_of_rows_eq_append_cons {s row : Text} {before after : List Text}
    (h : rows s = before ++ row :: after) (hrow : '\n' ∉ row) : after = [] := by
  refine Classical.byContradiction fun hafter ↦ ?_
  have hmem : row ∈ rows s := h ▸ List.mem_append_right before List.mem_cons_self
  rw [List.append_cons] at h
  have hterm := terminated_flatten_of_rows_eq_append h hafter
  rw [List.flatten_append, List.flatten_singleton] at hterm
  exact not_terminated_of_notMem (ne_nil_of_mem_rows hmem) hrow hterm.of_append

/-- When some of the rows of a text are those of a part of it, the part is terminated as far as
something follows, and so is what stands in front of it. -/
theorem cut_of_rows_eq {s middle : Text} {before after : List Text}
    (h : rows s = before ++ (rows middle ++ after)) :
    s = before.flatten ++ (middle ++ after.flatten) ∧
      (middle ≠ [] → Terminated before.flatten) ∧ (after.flatten ≠ [] → Terminated middle) := by
  have hflatten := congrArg List.flatten h
  rw [flatten_rows, List.flatten_append, List.flatten_append, flatten_rows] at hflatten
  refine ⟨hflatten, fun hmiddle ↦ ?_, fun hafter ↦ ?_⟩
  · apply terminated_flatten_of_rows_eq_append h
    intro hnil
    have hempty := congrArg List.flatten (List.append_eq_nil_iff.mp hnil).1
    rw [flatten_rows] at hempty
    exact hmiddle hempty
  · rw [← List.append_assoc] at h
    have hterm := terminated_flatten_of_rows_eq_append h fun hnil ↦ hafter (by rw [hnil]; rfl)
    rw [List.flatten_append, flatten_rows] at hterm
    exact hterm.of_append

theorem rowBody_append_singleton (body : Text) :
    rowBody (body ++ ['\n']) = dropFinal '\r' body := by
  rw [rowBody, dropFinal_append_singleton]

theorem dropFinal_eq_iff {c : Char} {s t : Text} :
    dropFinal c s = t ↔ s = t ++ [c] ∨ s = t ∧ t.getLast? ≠ some c := by
  unfold dropFinal
  split
  · rename_i hlast
    obtain ⟨front, rfl⟩ := List.getLast?_eq_some_iff.mp hlast
    rw [List.dropLast_concat]
    constructor
    · rintro rfl
      exact .inl rfl
    · rintro (hsame | ⟨rfl, hnot⟩)
      · exact List.append_cancel_right hsame
      · exact absurd hlast hnot
  · rename_i hlast
    constructor
    · rintro rfl
      exact .inr ⟨rfl, hlast⟩
    · rintro (rfl | ⟨rfl, -⟩)
      · exact absurd List.getLast?_concat hlast
      · rfl

theorem dropFinal_of_notMem {c : Char} {s : Text} (h : c ∉ s) : dropFinal c s = s := by
  rw [dropFinal, if_neg]
  exact fun hlast ↦ h (List.mem_of_getLast? hlast)

theorem mem_of_mem_dropFinal {c d : Char} {s : Text} (h : d ∈ dropFinal c s) : d ∈ s := by
  unfold dropFinal at h
  split at h
  · exact List.dropLast_subset s h
  · exact h

theorem mem_of_mem_rowBody {c : Char} {row : Text} (h : c ∈ rowBody row) : c ∈ row :=
  mem_of_mem_dropFinal (mem_of_mem_dropFinal h)

theorem rowBody_of_notMem {s : Text} (h : '\n' ∉ s) : rowBody s = dropFinal '\r' s := by
  rw [rowBody, dropFinal_of_notMem h]

theorem shownRow_append_singleton (body : Text) :
    shownRow (body ++ ['\n']) = dropFinal '\r' body := by
  rw [shownRow, if_pos List.getLast?_concat, List.dropLast_concat]

theorem shownRow_of_notMem {s : Text} (h : '\n' ∉ s) : shownRow s = s :=
  if_neg fun hlast ↦ h (List.mem_of_getLast? hlast)

theorem notMem_shownRow {s row : Text} (h : row ∈ rows s) : '\n' ∉ shownRow row := by
  induction s using row_induction with
  | nil => exact absurd h List.not_mem_nil
  | last last hne hnot =>
    rw [rows_of_notMem hne hnot, List.mem_singleton] at h
    rwa [h, shownRow_of_notMem hnot]
  | cons body rest hbody ih =>
    rw [rows_body_append hbody] at h
    rcases List.mem_cons.mp h with rfl | hrest
    · rw [shownRow_append_singleton]
      exact fun hmem ↦ hbody (mem_of_mem_dropFinal hmem)
    · exact ih hrest

/-- A row of `s` that meets a line feed keeps its body; what follows the line feed begins new
rows. -/
theorem mem_rows_append_cons {s t row : Text} (h : row ∈ rows (s ++ '\n' :: t)) :
    row = ['\n'] ∨ (∃ r ∈ rows s, rowBody r = rowBody row) ∨ row ∈ rows t := by
  induction s using row_induction with
  | nil =>
    rw [rows_body_append (by simp)] at h
    simpa using (List.mem_cons.mp h).imp_right Or.inr
  | last r hne hnot =>
    rw [rows_body_append hnot] at h
    rcases List.mem_cons.mp h with rfl | hrow
    · right
      left
      refine ⟨r, by simp [rows_of_notMem hne hnot], ?_⟩
      rw [rowBody_append_singleton, rowBody_of_notMem hnot]
    · exact .inr (.inr hrow)
  | cons body rest hbody ih =>
    rw [List.append_assoc, List.cons_append, rows_body_append hbody] at h
    rw [rows_body_append hbody]
    rcases List.mem_cons.mp h with rfl | hrow
    · exact .inr (.inl ⟨_, List.mem_cons_self, rfl⟩)
    · rcases ih hrow with heq | ⟨r, hr, heq⟩ | hin
      · exact .inl heq
      · exact .inr (.inl ⟨r, List.mem_cons_of_mem _ hr, heq⟩)
      · exact .inr (.inr hin)

/-- The first row keeps its body, whatever follows behind a line feed. -/
theorem exists_rows_append_cons {s row : Text} {rest : List Text} (h : rows s = row :: rest)
    (t : Text) : ∃ r others, rows (s ++ '\n' :: t) = r :: others ∧ rowBody r = rowBody row := by
  cases s using row_cases with
  | nil => simp [rows] at h
  | last _ hne hnot =>
    rw [rows_of_notMem hne hnot] at h
    obtain ⟨rfl, -⟩ := List.cons.inj h
    refine ⟨_, _, rows_body_append hnot t, ?_⟩
    rw [rowBody_append_singleton, rowBody_of_notMem hnot]
  | cons body others hbody =>
    rw [rows_body_append hbody] at h
    obtain ⟨rfl, -⟩ := List.cons.inj h
    refine ⟨_, rows (others ++ '\n' :: t), ?_, rfl⟩
    rw [List.append_assoc, List.cons_append, rows_body_append hbody]

/-- The lines of a text without their line feeds. What follows the last line feed is a line, also
when it is empty. -/
def lines (s : Text) : List Text := s.splitOn '\n'

theorem lines_of_notMem {s : Text} (h : '\n' ∉ s) : lines s = [s] := List.splitOn_eq_singleton h

theorem lines_append_cons (s t : Text) : lines (s ++ '\n' :: t) = lines s ++ lines t :=
  List.splitOn_append_cons_self s t

theorem lines_body_append {body : Text} (h : '\n' ∉ body) (s : Text) :
    lines (body ++ '\n' :: s) = body :: lines s :=
  List.splitOn_append_cons_self_of_not_mem h s

/-- Pieces with a line feed in front of each are the lines behind the first one. -/
theorem lines_append_flatMap {ι : Type} {piece : ι → Text} {first : Text} {items : List ι}
    (hfirst : '\n' ∉ first) (hitems : ∀ i ∈ items, '\n' ∉ piece i) :
    lines (first ++ items.flatMap fun i ↦ ['\n'] ++ piece i) = first :: items.map piece := by
  induction items generalizing first with
  | nil => rw [List.flatMap_nil, List.append_nil, lines_of_notMem hfirst, List.map_nil]
  | cons i items ih =>
    obtain ⟨hi, hrest⟩ := List.forall_mem_cons.mp hitems
    rw [List.flatMap_cons, List.append_assoc, List.singleton_append, lines_body_append hfirst,
      ih hi hrest, List.map_cons]

@[simp] theorem lineFeeds_nil : lineFeeds [] = 0 := rfl

theorem lineFeeds_of_notMem {s : Text} (h : '\n' ∉ s) : lineFeeds s = 0 :=
  List.count_eq_zero.mpr h

theorem lineFeeds_body_append {body : Text} (h : '\n' ∉ body) (s : Text) :
    lineFeeds (body ++ '\n' :: s) = lineFeeds s + 1 := by
  rw [lineFeeds_append, lineFeeds_of_notMem h, Nat.zero_add]
  exact List.count_cons_self

theorem length_rows_of_terminated {s : Text} (h : Terminated s) :
    (rows s).length = lineFeeds s := by
  induction s using row_induction with
  | nil => rfl
  | last row hne hnot => exact absurd h (not_terminated_of_notMem hne hnot)
  | cons body rest hbody ih =>
    rw [rows_body_append hbody, lineFeeds_body_append hbody, List.length_cons,
      ih (terminated_body_append_iff.mp h)]

/-- A row of the middle part of a text is a row of the text. -/
theorem getElem?_rows_of_middle {before middle after row : Text} {i : Nat}
    (hbefore : middle ≠ [] → Terminated before) (hmiddle : after ≠ [] → Terminated middle)
    (h : (rows middle)[i]? = some row) :
    (rows (before ++ (middle ++ after)))[lineFeeds before + i]? = some row := by
  have hi := (List.getElem?_eq_some_iff.mp h).1
  have hfront : Terminated before := by
    apply hbefore
    rintro rfl
    exact absurd hi (Nat.not_lt_zero i)
  have hrows : rows (middle ++ after) = rows middle ++ rows after := by
    by_cases hafter : after = []
    · rw [hafter, List.append_nil, rows, List.append_nil]
    · exact rows_append (hmiddle hafter) after
  rw [rows_append hfront, hrows, ← length_rows_of_terminated hfront,
    List.getElem?_append_right (Nat.le_add_right _ _), Nat.add_sub_cancel_left,
    List.getElem?_append_left hi, h]

/-- The text behind its first lines, as many as are asked for and end with a line feed. -/
def dropLines : Nat → Text → Text
  | 0, s => s
  | _ + 1, [] => []
  | n + 1, c :: s => if c = '\n' then dropLines n s else dropLines (n + 1) s

@[simp] theorem dropLines_zero (s : Text) : dropLines 0 s = s := by
  cases s <;> rfl

theorem dropLines_body_append {body : Text} (h : '\n' ∉ body) (n : Nat) (s : Text) :
    dropLines (n + 1) (body ++ '\n' :: s) = dropLines n s := by
  induction body with
  | nil => rw [List.nil_append, dropLines, if_pos rfl]
  | cons c body ih =>
    have hc := List.ne_of_not_mem_cons h
    have hbody := List.not_mem_of_not_mem_cons h
    rw [List.cons_append, dropLines, if_neg (Ne.symm hc), ih hbody]

/-- The lines of a terminated text are dropped in front of whatever follows. -/
theorem dropLines_append {s : Text} (h : Terminated s) (t : Text) :
    dropLines (lineFeeds s) (s ++ t) = t := by
  induction s using row_induction with
  | nil => exact dropLines_zero t
  | last row hne hnot => exact absurd h (not_terminated_of_notMem hne hnot)
  | cons body rest hbody ih =>
    rw [List.append_assoc, List.cons_append, lineFeeds_body_append hbody,
      dropLines_body_append hbody, ih (terminated_body_append_iff.mp h)]

theorem length_lines (s : Text) : (lines s).length = lineFeeds s + 1 := by
  induction s using row_induction with
  | nil => rfl
  | last row hne hnot => rw [lines_of_notMem hnot, lineFeeds_of_notMem hnot, List.length_singleton]
  | cons body rest hbody ih =>
    rw [lines_body_append hbody, lineFeeds_body_append hbody, List.length_cons, ih]

/-- The lines of `t` follow those of a terminated `s`. -/
theorem getElem?_lines_append_right {s : Text} (h : Terminated s) (t : Text) (i : Nat) :
    (lines (s ++ t))[lineFeeds s + i]? = (lines t)[i]? := by
  induction s using row_induction with
  | nil => rw [List.nil_append, lineFeeds_nil, Nat.zero_add]
  | last row hne hnot => exact absurd h (not_terminated_of_notMem hne hnot)
  | cons body rest hbody ih =>
    rw [List.append_assoc, List.cons_append, lines_body_append hbody, lineFeeds_body_append hbody,
      Nat.add_right_comm, List.getElem?_cons_succ]
    exact ih (terminated_body_append_iff.mp h)

/-- A line with a line feed behind it does not depend on what follows. -/
theorem getElem?_lines_append_left {s : Text} {i : Nat} (h : i < lineFeeds s) (t : Text) :
    (lines (s ++ t))[i]? = (lines s)[i]? := by
  induction s using row_induction generalizing i with
  | nil => simp at h
  | last row hne hnot =>
    rw [lineFeeds_of_notMem hnot] at h
    omega
  | cons body rest hbody ih =>
    rw [List.append_assoc, List.cons_append, lines_body_append hbody, lines_body_append hbody]
    rw [lineFeeds_body_append hbody] at h
    cases i with
    | zero => rfl
    | succ i => exact ih (Nat.lt_of_succ_lt_succ h)

/-- The last line of a text is the beginning of a line when more follows. -/
theorem exists_prefix_getElem?_lines_append {s last : Text}
    (h : (lines s)[lineFeeds s]? = some last) (t : Text) :
    ∃ line, (lines (s ++ t))[lineFeeds s]? = some line ∧ last <+: line := by
  induction s using row_induction with
  | nil =>
    obtain rfl : [] = last := Option.some.inj h
    obtain ⟨line, others, hlines⟩ := List.exists_cons_of_ne_nil (List.splitOn_ne_nil '\n' t)
    exact ⟨line, by rw [List.nil_append, lines, hlines]; rfl, List.nil_prefix⟩
  | last row hne hnot =>
    rw [lines_of_notMem hnot, lineFeeds_of_notMem hnot] at h
    obtain rfl : row = last := Option.some.inj h
    rw [lineFeeds_of_notMem hnot]
    by_cases hmem : '\n' ∈ t
    · obtain ⟨body, rest, rfl, hbody⟩ := List.eq_append_cons_of_mem hmem
      have hrow : '\n' ∉ row ++ body := by simp [hnot, hbody]
      refine ⟨row ++ body, ?_, List.prefix_append row body⟩
      rw [← List.append_assoc, lines_body_append hrow]
      rfl
    · refine ⟨row ++ t, ?_, List.prefix_append row t⟩
      rw [lines_of_notMem (by simp [hnot, hmem])]
      rfl
  | cons body rest hbody ih =>
    rw [lines_body_append hbody, lineFeeds_body_append hbody, List.getElem?_cons_succ] at h
    rw [List.append_assoc, List.cons_append, lines_body_append hbody, lineFeeds_body_append hbody,
      List.getElem?_cons_succ]
    exact ih h

theorem getElem?_lines_of_terminated {s : Text} (h : Terminated s) :
    (lines s)[lineFeeds s]? = some [] := by
  have hnil := getElem?_lines_append_right h [] 0
  rwa [List.append_nil, Nat.add_zero] at hnil

/-- A line of the middle part of a text is a line of the text. What is left behind the last line
feed of the part is one only when it is not empty, because the text may end in front of it. -/
theorem getElem?_lines_of_middle {before middle after line : Text} {i : Nat}
    (hbefore : middle ≠ [] → Terminated before) (hmiddle : after ≠ [] → Terminated middle)
    (h : (lines middle)[i]? = some line) (hline : i = lineFeeds middle → line ≠ []) :
    (lines (before ++ (middle ++ after)))[lineFeeds before + i]? = some line := by
  have hi : i < (lines middle).length := (List.getElem?_eq_some_iff.mp h).1
  rw [length_lines] at hi
  have hne : middle ≠ [] := by
    rintro rfl
    obtain rfl : i = 0 := by simpa using hi
    exact hline rfl (Option.some.inj h).symm
  rw [getElem?_lines_append_right (hbefore hne)]
  by_cases hlast : i = lineFeeds middle
  · have hafter : after = [] := by
      refine Classical.byContradiction fun hafter ↦ ?_
      rw [hlast, getElem?_lines_of_terminated (hmiddle hafter)] at h
      exact hline hlast (Option.some.inj h).symm
    rw [hafter, List.append_nil, h]
  · rw [getElem?_lines_append_left (by omega), h]

end FencedCode.Text
