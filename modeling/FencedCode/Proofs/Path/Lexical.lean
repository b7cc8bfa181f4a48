import FencedCode.Proofs.Path.Child

/-!
# Canonical names

A normal form is told by its letters: it has no backslash, no empty segment and no `.`, and what
leads up stands in front of everything else, or nowhere when the name begins at the root. The names
without a segment of their own are the exceptions, `/` and `.`. A name and its normal form lead to
the same place, wherever they are followed from.
-/

namespace FencedCode.Path

variable {absolute : Bool} {segment s : Text} {names : List Text}

/-! ## The letters of a normal form -/

/-- The segments of a name behind the root. -/
def innerSegments (s : Text) : List Text :=
  if isAbsolute s then (segments s).drop 1 else segments s

/-- The only spelling of a name, by its letters. -/
structure IsCanonical (s : Text) : Prop where
  backslash_notMem : '\\' ∉ s
  eq_slash_of_nil_mem : [] ∈ innerSegments s → s = slash
  eq_dot_of_dot_mem : dot ∈ innerSegments s → s = dot
  eq_slash_of_getLast? : s.getLast? = some '/' → s = slash
  /-- Segments that lead up come first. -/
  exists_up : ∃ up names, innerSegments s = List.replicate up dotDot ++ names ∧ dotDot ∉ names
  /-- Above the root there is nothing. -/
  dotDot_notMem : isAbsolute s → dotDot ∉ innerSegments s

theorem isCanonical_slash : IsCanonical slash where
  backslash_notMem := by decide
  eq_slash_of_nil_mem _ := rfl
  eq_dot_of_dot_mem := by decide
  eq_slash_of_getLast? _ := rfl
  exists_up := ⟨0, [[]], by decide, by decide⟩
  dotDot_notMem := by decide

theorem isCanonical_dot : IsCanonical dot where
  backslash_notMem := by decide
  eq_slash_of_nil_mem := by decide
  eq_dot_of_dot_mem _ := rfl
  eq_slash_of_getLast? := by decide
  exists_up := ⟨0, [dot], by decide, by decide⟩
  dotDot_notMem := by decide

theorem isAbsolute_eq_rooted_of_normal (h : normalize s = s) : isAbsolute s = rooted s := by
  rw [rooted, map_separator_of_notMem (backslash_notMem_of_normal h)]

theorem IsNamed.innerSegments_eq (h : IsNamed s) : innerSegments s = (stack s).reverse := by
  rw [innerSegments, isAbsolute_eq_rooted_of_normal h.normal, segments, splitOn_of_isNamed h]
  cases rooted s <;> rfl

theorem IsNamed.getLast?_ne (h : IsNamed s) : s.getLast? ≠ some '/' := by
  intro hlast
  obtain ⟨front, rfl⟩ := List.getLast?_eq_some_iff.mp hlast
  have hsplit := splitOn_of_isNamed h
  obtain ⟨top, below, hstack⟩ := List.exists_cons_of_ne_nil h.stack_ne_nil
  rw [List.splitOn_append_cons_self, hstack, List.reverse_cons, ← List.append_assoc] at hsplit
  have htop : [[]] = [top] := List.append_inj_right' hsplit rfl
  have hmem : top ∈ stack (front ++ ['/']) := hstack ▸ List.mem_cons_self
  exact (isProper_of_mem_stack _ top hmem).ne_nil (List.singleton_inj.mp htop).symm

/-- A normal form with a segment is canonical. -/
theorem IsNamed.isCanonical (h : IsNamed s) : IsCanonical s := by
  have hproper : ∀ segment ∈ innerSegments s, IsProper segment := by
    intro segment hmem
    rw [h.innerSegments_eq, List.mem_reverse] at hmem
    exact isProper_of_mem_stack s segment hmem
  obtain ⟨up, down, hleads, hfold⟩ := exists_leads (parts s)
  have hinner : innerSegments s = (climb (rooted s) up []).reverse ++ down.reverse := by
    rw [h.innerSegments_eq, ← List.reverse_append]
    exact congrArg List.reverse (hfold (rooted s) [])
  have hdown : dotDot ∉ down.reverse := mt List.mem_reverse.mp hleads.1
  refine ⟨backslash_notMem_of_normal h.normal, fun hnil ↦ absurd rfl (hproper _ hnil).ne_nil,
    fun hdot ↦ absurd rfl (hproper _ hdot).ne_dot, fun hlast ↦ absurd hlast h.getLast?_ne, ?_,
    fun habsolute ↦ ?_⟩
  · cases hrooted : rooted s with
    | true => exact ⟨0, down.reverse, by rw [hinner, hrooted, climb_true_nil]; rfl, hdown⟩
    | false =>
      refine ⟨up, down.reverse, ?_, hdown⟩
      rw [hinner, hrooted, climb_false_nil, List.reverse_replicate]
  · rw [isAbsolute_eq_rooted_of_normal h.normal] at habsolute
    rwa [hinner, habsolute, climb_true_nil]

theorem isCanonical_of_normal (h : normalize s = s) : IsCanonical s := by
  by_cases hslash : s = slash
  · exact hslash ▸ isCanonical_slash
  by_cases hdot : s = dot
  · exact hdot ▸ isCanonical_dot
  exact IsNamed.isCanonical ⟨h, hslash, hdot⟩

theorem mem_segments_of_mem_innerSegments (h : segment ∈ innerSegments s) :
    segment ∈ s.splitOn '/' := by
  unfold innerSegments at h
  split at h
  · exact List.mem_of_mem_drop h
  · exact h

/-- A name is its segments behind the root, with the root in front when it is absolute. -/
theorem eq_joined_innerSegments (s : Text) :
    s = (if isAbsolute s then slash else []) ++ slash.intercalate (innerSegments s) := by
  unfold innerSegments
  split
  · rename_i habsolute
    obtain ⟨t, rfl⟩ := exists_eq_slash_cons habsolute
    rw [segments_slash_cons, List.drop_one, List.tail_cons]
    exact congrArg ('/' :: ·) (List.intercalate_splitOn '/').symm
  · exact (List.intercalate_splitOn '/').symm

/-- Segments that lead up, and plain ones behind them, are walked along as they stand. -/
theorem walk_replicate_append (up : Nat) (hproper : ∀ s ∈ names, IsProper s)
    (hnames : dotDot ∉ names) (absolute : Bool) :
    walk absolute (List.replicate up dotDot ++ names) = names.reverse ++ climb absolute up [] := by
  have hwalk := foldl_push_reverse (fun s hs ↦ hproper s (List.mem_reverse.mp hs))
    (mt List.mem_reverse.mp hnames) absolute (climb absolute up [])
  rw [walk, List.foldl_append, foldl_push_replicate_dotDot]
  rwa [List.reverse_reverse] at hwalk

/-- The segments of a canonical name are those of its normal form. -/
theorem IsCanonical.isSettled (h : IsCanonical s) (hslash : s ≠ slash) (hdot : s ≠ dot) :
    IsSettled (isAbsolute s) (innerSegments s).reverse := by
  have hproper : ∀ segment ∈ innerSegments s, IsProper segment := fun segment hmem ↦ {
    ne_nil := fun hnil ↦ hslash (h.eq_slash_of_nil_mem (hnil ▸ hmem))
    ne_dot := fun hsame ↦ hdot (h.eq_dot_of_dot_mem (hsame ▸ hmem))
    slash_notMem := slash_notMem_of_mem_splitOn segment (mem_segments_of_mem_innerSegments hmem) }
  have hplain : ∀ segment ∈ innerSegments s, '\\' ∉ segment := fun segment hmem hin ↦
    h.backslash_notMem ((mem_iff_exists_mem_splitOn (by decide)).mpr
      ⟨segment, mem_segments_of_mem_innerSegments hmem, hin⟩)
  obtain ⟨up, names, hinner, hnames⟩ := h.exists_up
  have hwalk : walk (isAbsolute s) (innerSegments s) = (innerSegments s).reverse := by
    have hclimb : climb (isAbsolute s) up [] = List.replicate up dotDot := by
      cases habsolute : isAbsolute s with
      | false => exact climb_false_nil up
      | true =>
        have hnot := h.dotDot_notMem habsolute
        rw [hinner, List.mem_append, not_or, List.mem_replicate] at hnot
        obtain rfl : up = 0 := by simpa using hnot.1
        rfl
    rw [hinner] at hproper ⊢
    rw [walk_replicate_append up (fun s hs ↦ hproper s (List.mem_append_right _ hs)) hnames, hclimb,
      List.reverse_append, List.reverse_replicate]
  refine ⟨fun s hs ↦ hproper s (List.mem_reverse.mp hs),
    fun s hs ↦ hplain s (List.mem_reverse.mp hs), ?_⟩
  rw [List.reverse_reverse, hwalk]

theorem IsCanonical.normalize_eq (h : IsCanonical s) : normalize s = s := by
  by_cases hslash : s = slash
  · rw [hslash]
    rfl
  by_cases hdot : s = dot
  · rw [hdot]
    rfl
  have hsettled := h.isSettled hslash hdot
  have hne : s ≠ [] := by
    rintro rfl
    exact hslash (h.eq_slash_of_nil_mem List.mem_cons_self)
  have hrender : render (isAbsolute s) (innerSegments s).reverse = s := by
    have hjoined := eq_joined_innerSegments s
    rw [render, List.reverse_reverse]
    cases habsolute : isAbsolute s with
    | true =>
      rw [habsolute] at hjoined
      exact hjoined.symm
    | false =>
      rw [habsolute, if_neg Bool.false_ne_true, List.nil_append] at hjoined
      rw [if_neg Bool.false_ne_true, ← hjoined]
      exact if_neg (mt List.isEmpty_iff.mp hne)
  rw [← hrender, hsettled.normalize_render]

theorem normalize_eq_self_iff (s : Text) : normalize s = s ↔ IsCanonical s :=
  ⟨isCanonical_of_normal, IsCanonical.normalize_eq⟩

/-! ## Where a name leads -/

/-- The place that one segment leads to. Places are the names of their folders, the innermost one
first, and from the root `..` leads nowhere else. -/
def enter (place : List Text) (segment : Text) : List Text :=
  if segment = [] ∨ segment = dot then place
  else if segment = dotDot then place.tail
  else segment :: place

/-- The place that a name leads to from `start`. An absolute name leads there from the root. -/
def destination (start : List Text) (s : Text) : List Text :=
  (parts s).foldl enter (if rooted s then [] else start)

theorem isStep_enter : IsStep enter where
  void h _ := if_pos h
  down h hne _ := by rw [enter, if_neg h, if_neg hne]
  back _ _ := rfl

theorem repeat_enter_dotDot (up : Nat) (place : List Text) :
    Nat.repeat (enter · dotDot) up place = place.drop up := by
  induction up with
  | zero => rfl
  | succ up ih =>
    rw [Nat.repeat, ih, ← List.tail_drop]
    rfl

/-- A name leads so many folders up and then down, as its stack tells. -/
theorem exists_destination_eq (s : Text) : ∃ up down, dotDot ∉ down ∧
    stack s = down ++ climb (rooted s) up [] ∧
    ∀ start, destination start s = down ++ (if rooted s then [] else start).drop up := by
  obtain ⟨up, down, hdown, hfold⟩ := exists_foldl_eq (parts s)
  refine ⟨up, down, hdown, ?_, fun start ↦ ?_⟩
  · rw [stack, walk, hfold _ (isStep_push (rooted s)), climb_eq_repeat]
  · rw [destination, hfold _ isStep_enter, repeat_enter_dotDot]

/-- A name and its normal form lead to one place. -/
theorem destination_normalize (start : List Text) (s : Text) :
    destination start (normalize s) = destination start s := by
  obtain ⟨up, down, hdown, hstack, hplace⟩ := exists_destination_eq s
  obtain ⟨up', down', hdown', hstack', hplace'⟩ := exists_destination_eq (normalize s)
  rw [stack_normalize, rooted_normalize, hstack] at hstack'
  rw [hplace, hplace', rooted_normalize]
  cases hrooted : rooted s with
  | true =>
    rw [hrooted, climb_true_nil, climb_true_nil, List.append_nil, List.append_nil] at hstack'
    rw [if_pos rfl, List.drop_nil, List.drop_nil, hstack']
  | false =>
    rw [hrooted, climb_false_nil, climb_false_nil] at hstack'
    obtain ⟨rfl, rfl⟩ := replicate_dotDot_append_inj hdown hdown' hstack'
    rfl

theorem separator_eq_slash_iff (c : Char) : separator c = '/' ↔ c = '/' ∨ c = '\\' := by
  unfold separator
  split
  · rename_i hbackslash
    exact iff_of_true rfl (.inr hbackslash)
  · rename_i hbackslash
    exact (or_iff_left hbackslash).symm

theorem isAbsolute_normalize_iff (s : Text) :
    isAbsolute (normalize s) ↔ s.head? = some '/' ∨ s.head? = some '\\' := by
  rw [isAbsolute_eq_rooted_of_normal (normalize_normalize s), rooted_normalize, rooted, isAbsolute,
    List.head?_map, decide_eq_true_eq]
  cases s.head? with
  | none => simp
  | some c => simp [separator_eq_slash_iff]

/-- A normal form is canonical, and a name is its own normal form exactly when it is canonical. The
normal form is absolute when the name begins with a separator of either kind, and leads where the
name leads, from the root and from everywhere else. -/
theorem normalize_canonical (s : Text) :
    IsCanonical (normalize s) ∧
      (isAbsolute (normalize s) ↔ s.head? = some '/' ∨ s.head? = some '\\') ∧
      (normalize s = s ↔ IsCanonical s) ∧ normalize (normalize s) = normalize s ∧
      ∀ start, destination start (normalize s) = destination start s :=
  ⟨isCanonical_of_normal (normalize_normalize s), isAbsolute_normalize_iff s,
    normalize_eq_self_iff s, normalize_normalize s, fun start ↦ destination_normalize start s⟩

end FencedCode.Path
