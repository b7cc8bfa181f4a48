import FencedCode.Proofs.Path.Walk

/-!
# Names below a folder

A name in normal form lies below a folder when the folder and a separator stand in front of it.
In stacks of segments the folder is then at the bottom, with at least one segment on it. A name that
is read from a folder leads below it exactly when it comes back down through the folders that it has
left, and goes on from there.
-/

namespace FencedCode.Path

/-- The name, which is in normal form, lies below the folder. -/
def IsBelow (folder path : Text) : Prop := normalize folder ++ slash <+: path

instance (folder path : Text) : Decidable (IsBelow folder path) :=
  inferInstanceAs (Decidable (_ <+: _))

/-! ## Joined segments -/

theorem splitOn_joined {list : List Text} (h : ∀ s ∈ list, IsProper s) (hne : list ≠ []) :
    (slash.intercalate list).splitOn '/' = list :=
  List.splitOn_intercalate '/' (fun s hs ↦ (h s hs).slash_notMem) hne

theorem joined_ne_nil {list : List Text} (h : ∀ s ∈ list, IsProper s) (hne : list ≠ []) :
    slash.intercalate list ≠ [] := by
  intro hnil
  have hsplit := splitOn_joined h hne
  rw [hnil] at hsplit
  have hmem : ([] : Text) ∈ list := by
    rw [← hsplit]
    exact List.mem_singleton_self _
  exact (h [] hmem).ne_nil rfl

/-- Joined segments begin with others and a separator when the segments begin with the others, and
are more. -/
theorem joined_append_slash_prefix_iff {front all : List Text} (hfront : ∀ s ∈ front, IsProper s)
    (hall : ∀ s ∈ all, IsProper s) (hne : front ≠ []) :
    slash.intercalate front ++ slash <+: slash.intercalate all ↔
      ∃ back, back ≠ [] ∧ all = front ++ back := by
  have hsplit (rest : Text) : (slash.intercalate front ++ slash ++ rest).splitOn '/' =
      front ++ rest.splitOn '/' := by
    rw [List.append_assoc]
    show (slash.intercalate front ++ '/' :: rest).splitOn '/' = _
    rw [List.splitOn_append_cons_self, splitOn_joined hfront hne]
  constructor
  · rintro ⟨rest, hrest⟩
    have hallne : all ≠ [] := by
      rintro rfl
      simp [slash] at hrest
    refine ⟨rest.splitOn '/', List.splitOn_ne_nil '/' rest, ?_⟩
    rw [← hsplit, hrest, splitOn_joined hall hallne]
  · rintro ⟨back, hback, rfl⟩
    have hproper : ∀ s ∈ back, IsProper s := fun s hs ↦ hall s (List.mem_append_right _ hs)
    refine ⟨slash.intercalate back, ?_⟩
    have hjoined := hsplit (slash.intercalate back)
    rw [splitOn_joined hproper hback] at hjoined
    rw [← hjoined]
    exact (List.intercalate_splitOn '/').symm

theorem render_append_slash_prefix_iff {absolute : Bool} {lower walked : List Text}
    (hlower : ∀ s ∈ lower, IsProper s) (hwalked : ∀ s ∈ walked, IsProper s) (hne : lower ≠ []) :
    render absolute lower ++ slash <+: render absolute walked ↔
      ∃ upper, upper ≠ [] ∧ walked = upper ++ lower := by
  have hfront : ∀ s ∈ lower.reverse, IsProper s := fun s hs ↦ hlower s (List.mem_reverse.mp hs)
  have hall : ∀ s ∈ walked.reverse, IsProper s := fun s hs ↦ hwalked s (List.mem_reverse.mp hs)
  have hfrontne : lower.reverse ≠ [] := mt List.reverse_eq_nil_iff.mp hne
  have hjoined : render absolute lower ++ slash <+: render absolute walked ↔
      slash.intercalate lower.reverse ++ slash <+: slash.intercalate walked.reverse := by
    cases absolute with
    | true => exact List.prefix_cons_inj '/'
    | false =>
      have hfirst : render false lower = slash.intercalate lower.reverse :=
        if_neg (by simpa using joined_ne_nil hfront hfrontne)
      by_cases hempty : slash.intercalate walked.reverse = []
      · -- A separator stands neither in the name of the folder itself nor in an empty name.
        have hdot : render false walked = dot := if_pos (by simp [hempty])
        have hnot (s : Text) (hs : '/' ∉ s) :
            ¬ slash.intercalate lower.reverse ++ slash <+: s := fun h ↦
          hs (h.subset (List.mem_append_right _ (List.mem_singleton_self _)))
        rw [hfirst, hdot, hempty]
        exact iff_of_false (hnot dot (by decide)) (hnot [] List.not_mem_nil)
      · have hsecond : render false walked = slash.intercalate walked.reverse :=
          if_neg (by simpa using hempty)
        rw [hfirst, hsecond]
  rw [hjoined, joined_append_slash_prefix_iff hfront hall hfrontne]
  constructor
  · rintro ⟨back, hback, heq⟩
    refine ⟨back.reverse, mt List.reverse_eq_nil_iff.mp hback, ?_⟩
    rw [List.reverse_eq_iff.mp heq, List.reverse_append, List.reverse_reverse]
  · rintro ⟨upper, hupper, rfl⟩
    exact ⟨upper.reverse, mt List.reverse_eq_nil_iff.mp hupper, List.reverse_append⟩

/-! ## Leading below a folder -/

/-- The name leads some folders up, back down through them, and further. Above the whole folder
it can come back only when the folder starts at the root, above which there is nothing. -/
def ReturnsBelow (folder name : Text) : Prop :=
  ∃ up further, further ≠ [] ∧ Leads (parts name) up (further ++ (stack folder).take up) ∧
    (up ≤ (stack folder).length ∨ rooted folder)

theorem climb_add (absolute : Bool) (up more : Nat) (walked : List Text) :
    climb absolute (up + more) walked = climb absolute more (climb absolute up walked) := by
  induction more with
  | zero => rfl
  | succ more ih => rw [← Nat.add_assoc, climb_succ, ih, climb_succ]

theorem climb_append_of_length_le {down : List Text} (h : dotDot ∉ down) (absolute : Bool)
    {up : Nat} (hup : down.length ≤ up) (below : List Text) :
    climb absolute up (down ++ below) = climb absolute (up - down.length) below := by
  obtain ⟨more, rfl⟩ := Nat.exists_eq_add_of_le hup
  rw [climb_add, climb_append h absolute (Nat.le_refl _), List.drop_left, Nat.add_sub_cancel_left]

theorem append_drop_eq_append_iff {down further walked : List Text} (up : Nat) :
    down ++ walked.drop up = further ++ walked ↔ down = further ++ walked.take up := by
  have hwalked : further ++ walked = further ++ walked.take up ++ walked.drop up := by
    rw [List.append_assoc, List.take_append_drop]
  rw [hwalked, List.append_cancel_right_eq]

/-- Above the outermost named folder no name is left to come back to. -/
theorem append_replicate_dotDot_ne {inner further down : List Text} (hinner : dotDot ∉ inner)
    (hne : inner ≠ []) (above more : Nat) :
    down ++ List.replicate (above + (more + 1)) dotDot ≠
      further ++ (inner ++ List.replicate above dotDot) := by
  intro heq
  rw [Nat.add_comm above, ← List.replicate_append_replicate, ← List.append_assoc,
    ← List.append_assoc, List.append_cancel_right_eq] at heq
  have hlast := congrArg List.getLast? heq
  rw [List.getLast?_append, List.getLast?_append, List.getLast?_replicate,
    if_neg (Nat.succ_ne_zero _), Option.some_or, List.getLast?_eq_some_getLast hne,
    Option.some_or, Option.some_inj] at hlast
  rw [hlast] at hinner
  exact hinner (List.getLast_mem hne)

/-- Segments on a climb from a folder have the folder below them exactly when they put back all that
the climb has left. -/
theorem append_climb_eq_append_iff {absolute : Bool} {inner further down : List Text}
    (hinner : dotDot ∉ inner) (hne : inner ≠ []) (hdown : dotDot ∉ down) (above up : Nat) :
    down ++ climb absolute up (inner ++ climb absolute above []) =
        further ++ (inner ++ climb absolute above []) ↔
      down = further ++ (inner ++ climb absolute above []).take up ∧
        (up ≤ (inner ++ climb absolute above []).length ∨ absolute) := by
  rcases Nat.lt_or_ge inner.length up with hout | hwithin
  · rw [climb_append_of_length_le hinner absolute (Nat.le_of_lt hout)]
    cases absolute with
    | true =>
      rw [climb_true_nil, climb_true_nil, List.append_nil, List.append_nil,
        List.take_of_length_le (Nat.le_of_lt hout), and_iff_left (.inr rfl)]
    | false =>
      obtain ⟨more, hmore⟩ := Nat.exists_eq_add_of_lt hout
      have hleft : up - inner.length = more + 1 := by omega
      rw [climb_false_nil, climb_false_replicate, hleft]
      refine iff_of_false (append_replicate_dotDot_ne hinner hne above more) ?_
      rintro ⟨heq, hlength⟩
      -- What the climb has left holds a segment that leads up, and the name cannot put it back.
      rw [List.length_append, List.length_replicate] at hlength
      apply hdown
      rw [heq, List.take_append, hleft, List.take_replicate]
      have hmin : min (more + 1) above ≠ 0 := by
        rcases hlength with hlength | hfalse
        · omega
        · exact absurd hfalse Bool.false_ne_true
      exact List.mem_append_right _ (List.mem_append_right _ (List.mem_replicate.mpr ⟨hmin, rfl⟩))
  · have hlength : up ≤ (inner ++ climb absolute above []).length := by
      rw [List.length_append]
      exact Nat.le_add_right_of_le hwithin
    rw [climb_append hinner absolute hwithin, and_iff_left (.inl hlength),
      append_drop_eq_append_iff]

/-- A folder whose last segment is a name has names on top, and below them only segments that lead
up. -/
theorem exists_stack_eq {folder top : Text} {lower : List Text}
    (hstack : stack folder = top :: lower) (htop : top ≠ dotDot) :
    ∃ above inner, dotDot ∉ inner ∧ inner ≠ [] ∧
      stack folder = inner ++ climb (rooted folder) above [] := by
  obtain ⟨above, inner, hleads, hfold⟩ := exists_leads (parts folder)
  have heq : stack folder = inner ++ climb (rooted folder) above [] := hfold (rooted folder) []
  refine ⟨above, inner, hleads.1, ?_, heq⟩
  rintro rfl
  rw [hstack, List.nil_append] at heq
  cases hrooted : rooted folder with
  | true =>
    rw [hrooted, climb_true_nil] at heq
    exact List.cons_ne_nil _ _ heq
  | false =>
    rw [hrooted, climb_false_nil] at heq
    exact htop (List.eq_of_mem_replicate (heq ▸ List.mem_cons_self))

/-- A name that is read from a folder lies below the folder exactly when it returns below it. -/
theorem isBelow_normalize_iff {folder top : Text} {lower : List Text}
    (hstack : stack folder = top :: lower) (htop : top ≠ dotDot) (name : Text) :
    IsBelow folder (normalize (folder ++ '/' :: name)) ↔ ReturnsBelow folder name := by
  have hfolder : folder ≠ [] := by
    rintro rfl
    exact List.cons_ne_nil _ _ hstack.symm
  obtain ⟨up, down, hleads, -⟩ := exists_leads (parts name)
  obtain ⟨above, inner, hinner, hne, heq⟩ := exists_stack_eq hstack htop
  have hbelow : IsBelow folder (normalize (folder ++ '/' :: name)) ↔
      ∃ further, further ≠ [] ∧ down ++ climb (rooted folder) up (stack folder) =
        further ++ stack folder := by
    unfold IsBelow
    rw [normalize_eq_render, normalize_eq_render, rooted_append hfolder,
      render_append_slash_prefix_iff (isProper_of_mem_stack _) (isProper_of_mem_stack _)
        (by rw [hstack]; exact List.cons_ne_nil _ _),
      stack_append_slash hfolder, hleads.foldl_push]
  rw [hbelow]
  simp only [heq, append_climb_eq_append_iff hinner hne hleads.1]
  rw [← heq]
  constructor
  · rintro ⟨further, hfurther, hdown, hreach⟩
    exact ⟨up, further, hfurther, hdown ▸ hleads, hreach⟩
  · rintro ⟨up', further, hfurther, hleads', hreach⟩
    obtain ⟨rfl, rfl⟩ := replicate_dotDot_append_inj hleads.1 hleads'.1
      (hleads.2.symm.trans hleads'.2)
    exact ⟨further, hfurther, rfl, hreach⟩

theorem foldl_push_of_dotDot_notMem {segments : List Text} (h : dotDot ∉ segments)
    (absolute : Bool) (walked : List Text) :
    segments.foldl (push absolute) walked =
      (segments.filter fun s ↦ s ≠ [] ∧ s ≠ dot).reverse ++ walked := by
  induction segments generalizing walked with
  | nil => rfl
  | cons segment rest ih =>
    rw [List.foldl_cons, ih (List.not_mem_of_not_mem_cons h)]
    by_cases hvoid : segment = [] ∨ segment = dot
    · rw [push_of_void hvoid, List.filter_cons_of_neg (by simpa [or_iff_not_imp_left] using hvoid)]
    · rw [push_of_ne hvoid (Ne.symm (List.ne_of_not_mem_cons h)),
        List.filter_cons_of_pos (by simpa [not_or] using hvoid), List.reverse_cons,
        List.append_assoc, List.singleton_append]

/-- Proper segments that do not lead up are walked along as they stand. -/
theorem foldl_push_reverse {down : List Text} (hproper : ∀ s ∈ down, IsProper s)
    (h : dotDot ∉ down) (absolute : Bool) (walked : List Text) :
    down.reverse.foldl (push absolute) walked = down ++ walked := by
  have hall : down.reverse.filter (fun s ↦ s ≠ [] ∧ s ≠ dot) = down.reverse := by
    rw [List.filter_eq_self]
    intro segment hmem
    have hsegment := hproper segment (List.mem_reverse.mp hmem)
    exact decide_eq_true ⟨hsegment.ne_nil, hsegment.ne_dot⟩
  rw [foldl_push_of_dotDot_notMem (mt List.mem_reverse.mp h), hall, List.reverse_reverse]

end FencedCode.Path
