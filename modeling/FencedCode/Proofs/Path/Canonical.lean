import FencedCode.Proofs.Path.Below

/-!
# Normal forms are final

The walk along a normal form leaves the segments that stand in it, so a normal form has itself as
its normal form. Two names with one normal form are spellings of one name.
-/

namespace FencedCode.Path

/-! ## Characters of segments -/

theorem mem_joined_iff {c : Char} (hc : c ≠ '/') {list : List Text} :
    c ∈ slash.intercalate list ↔ ∃ s ∈ list, c ∈ s := by
  induction list with
  | nil => simp [List.intercalate]
  | cons first rest ih =>
    cases rest with
    | nil => simp [List.intercalate]
    | cons second rest =>
      rw [List.intercalate_cons_cons, List.mem_append, List.mem_append, ih]
      simp [slash, hc]

/-- Every character that is no separator stands in a segment. -/
theorem mem_iff_exists_mem_splitOn {c : Char} (hc : c ≠ '/') {s : Text} :
    c ∈ s ↔ ∃ segment ∈ s.splitOn '/', c ∈ segment := by
  rw [← mem_joined_iff hc, slash, List.intercalate_splitOn]

theorem separator_ne_backslash (c : Char) : separator c ≠ '\\' := by
  unfold separator
  split
  · decide
  · assumption

theorem map_separator_of_notMem {s : Text} (h : '\\' ∉ s) : s.map separator = s := by
  have hsame : ∀ c ∈ s, separator c = c := by
    intro c hc
    apply if_neg
    rintro rfl
    exact h hc
  rw [List.map_congr_left hsame, List.map_id']

theorem backslash_notMem_of_mem_parts {s segment : Text} (h : segment ∈ parts s) :
    '\\' ∉ segment := by
  intro hmem
  have hs : '\\' ∈ s.map separator :=
    (mem_iff_exists_mem_splitOn (by decide)).mpr ⟨segment, h, hmem⟩
  obtain ⟨c, -, hc⟩ := List.mem_map.mp hs
  exact separator_ne_backslash c hc

/-- Segments that are joined are the segments of the name. -/
theorem parts_joined {segments : List Text} (hne : segments ≠ [])
    (hslash : ∀ s ∈ segments, '/' ∉ s) (hbackslash : ∀ s ∈ segments, '\\' ∉ s) :
    parts (slash.intercalate segments) = segments := by
  have hplain : '\\' ∉ slash.intercalate segments := by
    rw [mem_joined_iff (by decide)]
    rintro ⟨s, hs, hmem⟩
    exact hbackslash s hs hmem
  rw [parts, map_separator_of_notMem hplain]
  exact List.splitOn_intercalate '/' hslash hne

theorem parts_of_notMem {s : Text} (hslash : '/' ∉ s) (hbackslash : '\\' ∉ s) :
    parts s = [s] := by
  have hparts := parts_joined (List.cons_ne_nil s []) (List.forall_mem_singleton.mpr hslash)
    (List.forall_mem_singleton.mpr hbackslash)
  rwa [List.intercalate_singleton] at hparts

theorem mem_push {absolute : Bool} {walked : List Text} {segment s : Text}
    (h : s ∈ push absolute walked segment) : s ∈ walked ∨ s = segment := by
  by_cases hvoid : segment = [] ∨ segment = dot
  · rw [push_of_void hvoid] at h
    exact .inl h
  by_cases hup : segment = dotDot
  · subst hup
    cases walked with
    | nil =>
      cases absolute with
      | true => exact .inl h
      | false => exact .inr (List.mem_singleton.mp h)
    | cons top below =>
      by_cases htop : top = dotDot
      · subst htop
        cases absolute with
        | true => exact .inl h
        | false => exact (List.mem_cons.mp h).symm
      · rw [push_dotDot_cons htop] at h
        exact .inl (List.mem_cons_of_mem _ h)
  · rw [push_of_ne hvoid hup] at h
    exact (List.mem_cons.mp h).symm

/-- A walk puts no segments on the stack but those that it walks along. -/
theorem mem_foldl_push {absolute : Bool} {segments walked : List Text} {s : Text}
    (h : s ∈ segments.foldl (push absolute) walked) : s ∈ walked ∨ s ∈ segments := by
  induction segments generalizing walked with
  | nil => exact .inl h
  | cons segment rest ih =>
    rcases ih h with hpush | hrest
    · rcases mem_push hpush with hwalked | rfl
      · exact .inl hwalked
      · exact .inr List.mem_cons_self
    · exact .inr (List.mem_cons_of_mem _ hrest)

/-! ## Settled stacks -/

/-- The segments stand in a normal form, the last one first: the walk along them leaves them. -/
structure IsSettled (absolute : Bool) (walked : List Text) : Prop where
  proper : ∀ s ∈ walked, IsProper s
  plain : ∀ s ∈ walked, '\\' ∉ s
  walk_reverse : walk absolute walked.reverse = walked

theorem foldl_push_replicate_dotDot (absolute : Bool) (up : Nat) (walked : List Text) :
    (List.replicate up dotDot).foldl (push absolute) walked = climb absolute up walked := by
  induction up generalizing walked with
  | zero => rfl
  | succ up ih => exact ih _

/-- Above a beginning there is only what leads up. -/
theorem walk_reverse_climb_nil (absolute : Bool) (up : Nat) :
    walk absolute (climb absolute up []).reverse = climb absolute up [] := by
  cases absolute with
  | true =>
    rw [climb_true_nil]
    rfl
  | false =>
    rw [climb_false_nil, List.reverse_replicate, walk, foldl_push_replicate_dotDot,
      climb_false_nil]

theorem isSettled_stack (s : Text) : IsSettled (rooted s) (stack s) := by
  refine ⟨isProper_of_mem_stack s, fun segment hmem ↦ ?_, ?_⟩
  · rcases mem_foldl_push hmem with hnil | hparts
    · exact absurd hnil List.not_mem_nil
    · exact backslash_notMem_of_mem_parts hparts
  · obtain ⟨up, down, hleads, hfold⟩ := exists_leads (parts s)
    have hstack : stack s = down ++ climb (rooted s) up [] := hfold (rooted s) []
    have hproper : ∀ segment ∈ down, IsProper segment := fun segment hmem ↦
      isProper_of_mem_stack s segment (hstack ▸ List.mem_append_left _ hmem)
    rw [hstack, List.reverse_append, walk, List.foldl_append, ← walk, walk_reverse_climb_nil,
      foldl_push_reverse hproper hleads.1]

/-! ## Normal forms of normal forms -/

variable {absolute : Bool} {walked : List Text}

theorem backslash_notMem_joined (h : ∀ s ∈ walked, '\\' ∉ s) :
    '\\' ∉ slash.intercalate walked.reverse := by
  rw [mem_joined_iff (by decide)]
  rintro ⟨s, hs, hmem⟩
  exact h s (List.mem_reverse.mp hs) hmem

theorem IsSettled.map_separator_render (h : IsSettled absolute walked) :
    (render absolute walked).map separator = render absolute walked := by
  apply map_separator_of_notMem
  have hjoined := backslash_notMem_joined h.plain
  cases absolute with
  | true => exact List.not_mem_cons_of_ne_of_not_mem (by decide) hjoined
  | false =>
    unfold render
    dsimp only
    rw [if_neg Bool.false_ne_true]
    split
    · decide
    · exact hjoined

theorem render_false_of_ne_nil (h : ∀ s ∈ walked, IsProper s) (hne : walked ≠ []) :
    render false walked = slash.intercalate walked.reverse := by
  have hproper : ∀ s ∈ walked.reverse, IsProper s := fun s hs ↦ h s (List.mem_reverse.mp hs)
  have hjoined := joined_ne_nil hproper (mt List.reverse_eq_nil_iff.mp hne)
  exact if_neg (by simpa using hjoined)

theorem nil_mem_segments {s : Text} (h : isAbsolute s) : [] ∈ segments s := by
  obtain ⟨rest, rfl⟩ := exists_eq_slash_cons h
  rw [segments_slash_cons]
  exact List.mem_cons_self

/-- A settled stack is read back from the name that it is written out as. -/
theorem IsSettled.rooted_stack_render (h : IsSettled absolute walked) :
    rooted (render absolute walked) = absolute ∧ stack (render absolute walked) = walked := by
  have hproper : ∀ s ∈ walked.reverse, IsProper s :=
    fun s hs ↦ h.proper s (List.mem_reverse.mp hs)
  rw [stack, parts, rooted, h.map_separator_render]
  cases absolute with
  | true =>
    have hsegments : segments (render true walked) =
        [] :: (slash.intercalate walked.reverse).splitOn '/' := segments_slash_cons _
    refine ⟨rfl, ?_⟩
    show walk true (segments (render true walked)) = walked
    rw [hsegments]
    cases walked with
    | nil => rfl
    | cons top below =>
      rw [splitOn_joined hproper (by simp)]
      exact h.walk_reverse
  | false =>
    by_cases hne : walked = []
    · subst hne
      exact ⟨rfl, rfl⟩
    · have hrender := render_false_of_ne_nil h.proper hne
      have hsegments : segments (render false walked) = walked.reverse := by
        rw [segments, hrender, splitOn_joined hproper (mt List.reverse_eq_nil_iff.mp hne)]
      have hrooted : isAbsolute (render false walked) = false := by
        rw [← Bool.not_eq_true]
        intro habsolute
        have hempty := nil_mem_segments habsolute
        rw [hsegments] at hempty
        exact (hproper [] hempty).ne_nil rfl
      rw [hrooted, hsegments]
      exact ⟨rfl, h.walk_reverse⟩

theorem IsSettled.normalize_render (h : IsSettled absolute walked) :
    normalize (render absolute walked) = render absolute walked := by
  obtain ⟨hrooted, hstack⟩ := h.rooted_stack_render
  rw [normalize_eq_render, hrooted, hstack]

/-- A normal form has itself as its normal form. -/
theorem normalize_normalize (s : Text) : normalize (normalize s) = normalize s := by
  rw [normalize_eq_render s, (isSettled_stack s).normalize_render]

end FencedCode.Path
