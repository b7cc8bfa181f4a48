import FencedCode.Proofs.Path.Gap

/-!
# Normal forms one segment deeper

The root and the current folder are the normal forms without a segment. Every other normal form is a
segment, a segment at the root, or such a normal form with a separator and a segment behind it. So a
plain segment can be written behind a name, and leave a normal form, exactly when the name is a
normal form with a segment of its own.
-/

namespace FencedCode.Path

variable {absolute : Bool} {walked : List Text} {top folder last s : Text}

/-! ## Stacks that are written out -/

theorem render_cons (hproper : ∀ s ∈ walked, IsProper s) (hne : walked ≠ []) (top : Text) :
    render absolute (top :: walked) = render absolute walked ++ '/' :: top := by
  have hjoined : slash.intercalate (top :: walked).reverse =
      slash.intercalate walked.reverse ++ '/' :: top := by
    rw [List.reverse_cons, joined_append_singleton (mt List.reverse_eq_nil_iff.mp hne)]
  cases absolute with
  | true => exact congrArg ('/' :: ·) hjoined
  | false =>
    have hnamed : ¬ (slash.intercalate (top :: walked).reverse).isEmpty := by
      rw [hjoined]
      simp
    rw [render_false_of_ne_nil hproper hne, ← hjoined]
    exact if_neg hnamed

theorem render_true_singleton (top : Text) : render true [top] = '/' :: top :=
  congrArg ('/' :: ·) List.intercalate_singleton

theorem render_false_singleton (h : top ≠ []) : render false [top] = top := by
  unfold render
  simp [h]

/-- What is left of a settled stack without its top is settled. -/
theorem IsSettled.tail (h : IsSettled absolute (top :: walked)) : IsSettled absolute walked := by
  refine ⟨fun s hs ↦ h.proper s (List.mem_cons_of_mem _ hs),
    fun s hs ↦ h.plain s (List.mem_cons_of_mem _ hs), ?_⟩
  by_cases htop : top = dotDot
  · -- Below a segment that leads up there are only such segments.
    obtain ⟨up, down, hleads, hfold⟩ := exists_leads (top :: walked).reverse
    have hall : top :: walked = down ++ climb absolute up [] :=
      h.walk_reverse.symm.trans (hfold absolute [])
    cases down with
    | cons _ down =>
      obtain ⟨rfl, -⟩ := List.cons.inj hall
      exact absurd (htop ▸ List.mem_cons_self) hleads.1
    | nil =>
      cases absolute with
      | true =>
        rw [climb_true_nil] at hall
        exact absurd hall (List.cons_ne_nil _ _)
      | false =>
        rw [climb_false_nil] at hall
        cases up with
        | zero => exact absurd hall (List.cons_ne_nil _ _)
        | succ up =>
          rw [(List.cons.inj hall).2, ← climb_false_nil]
          exact walk_reverse_climb_nil false up
  · have hwhole : IsSettled absolute ([] ++ top :: walked) := h
    exact (hwhole.split htop).2

/-! ## Names with a segment -/

/-- A normal form with a segment: neither the root nor the current folder. -/
structure IsNamed (s : Text) : Prop where
  normal : normalize s = s
  ne_slash : s ≠ slash
  ne_dot : s ≠ dot

instance (s : Text) : Decidable (IsNamed s) :=
  decidable_of_iff (normalize s = s ∧ s ≠ slash ∧ s ≠ dot)
    ⟨fun ⟨h, h', h''⟩ ↦ ⟨h, h', h''⟩, fun ⟨h, h', h''⟩ ↦ ⟨h, h', h''⟩⟩

theorem eq_render_of_normal (h : normalize s = s) : s = render (rooted s) (stack s) := h.symm

theorem backslash_notMem_of_normal (h : normalize s = s) : '\\' ∉ s := by
  intro hmem
  have hsame := (isSettled_stack s).map_separator_render
  rw [← eq_render_of_normal h] at hsame
  rw [← hsame] at hmem
  obtain ⟨c, -, hc⟩ := List.mem_map.mp hmem
  exact separator_ne_backslash c hc

theorem IsNamed.stack_ne_nil (h : IsNamed s) : stack s ≠ [] := by
  intro hnil
  have hs := eq_render_of_normal h.normal
  rw [hnil] at hs
  cases hrooted : rooted s with
  | true => exact h.ne_slash (hs.trans (by rw [hrooted]; rfl))
  | false => exact h.ne_dot (hs.trans (by rw [hrooted]; rfl))

theorem IsNamed.ne_nil (h : IsNamed s) : s ≠ [] := by
  rintro rfl
  exact absurd h.normal (by decide)

theorem IsSettled.isNamed_render (h : IsSettled absolute walked) (hne : walked ≠ []) :
    IsNamed (render absolute walked) := by
  obtain ⟨-, hstack⟩ := h.rooted_stack_render
  refine ⟨h.normalize_render, fun hslash ↦ hne ?_, fun hdot ↦ hne ?_⟩
  · rw [← hstack, hslash]
    rfl
  · rw [← hstack, hdot]
    rfl

theorem append_slash_inj {folder' last' : Text} (hlast : '/' ∉ last) (hlast' : '/' ∉ last')
    (h : folder ++ '/' :: last = folder' ++ '/' :: last') : folder = folder' ∧ last = last' := by
  have hpart := lastPart_append_slash hlast folder
  rw [h, lastPart_append_slash hlast'] at hpart
  obtain rfl := hpart
  exact ⟨List.append_cancel_right h, rfl⟩

theorem eq_nil_of_append_slash_eq {rest : Text} (hlast : '/' ∉ last) (hrest : '/' ∉ rest)
    (h : folder ++ '/' :: last = '/' :: rest) : folder = [] := by
  rw [← List.nil_append ('/' :: rest)] at h
  exact (append_slash_inj hlast hrest h).1

/-- A normal form with a separator lies at the root, or in a normal form with a segment. -/
theorem eq_nil_or_isNamed_of_normal (h : normalize (folder ++ '/' :: last) = folder ++ '/' :: last)
    (hlast : '/' ∉ last) : folder = [] ∨ IsNamed folder := by
  have hrender := eq_render_of_normal h
  have hsettled := isSettled_stack (folder ++ '/' :: last)
  revert hrender hsettled
  generalize rooted (folder ++ '/' :: last) = absolute
  generalize stack (folder ++ '/' :: last) = walked
  intro hrender hsettled
  have hslash : '/' ∈ folder ++ '/' :: last := List.mem_append_right _ List.mem_cons_self
  rcases walked with _ | ⟨top, below⟩
  · left
    cases absolute with
    | true => exact eq_nil_of_append_slash_eq hlast List.not_mem_nil hrender
    | false =>
      rw [hrender] at hslash
      exact absurd hslash (by decide)
  · have htop : IsProper top := hsettled.proper top List.mem_cons_self
    by_cases hbelow : below = []
    · subst hbelow
      left
      cases absolute with
      | true =>
        rw [render_true_singleton] at hrender
        exact eq_nil_of_append_slash_eq hlast htop.slash_notMem hrender
      | false =>
        rw [hrender, render_false_singleton htop.ne_nil] at hslash
        exact absurd hslash htop.slash_notMem
    · right
      rw [render_cons hsettled.tail.proper hbelow] at hrender
      rw [(append_slash_inj hlast htop.slash_notMem hrender).1]
      exact hsettled.tail.isNamed_render hbelow

/-! ## A plain segment more -/

theorem IsPlain.isSettled_singleton (h : IsPlain last) (absolute : Bool) :
    IsSettled absolute [last] := by
  refine ⟨List.forall_mem_singleton.mpr h.toIsProper,
    List.forall_mem_singleton.mpr h.backslash_notMem, ?_⟩
  exact push_of_ne (not_or.mpr ⟨h.ne_nil, h.ne_dot⟩) h.ne_dotDot absolute []

theorem IsPlain.normalize_eq (h : IsPlain last) : normalize last = last := by
  rw [← render_false_singleton h.ne_nil, (h.isSettled_singleton false).normalize_render]

theorem IsPlain.normalize_slash_cons (h : IsPlain last) :
    normalize ('/' :: last) = '/' :: last := by
  rw [← render_true_singleton, (h.isSettled_singleton true).normalize_render]

theorem IsPlain.stack_append_slash (h : IsPlain last) (hne : folder ≠ []) :
    stack (folder ++ '/' :: last) = last :: stack folder := by
  rw [Path.stack_append_slash hne, h.foldl_push_parts]

theorem IsNamed.append_slash (h : IsNamed folder) (hlast : IsPlain last) :
    IsNamed (folder ++ '/' :: last) := by
  have hnormal : normalize (folder ++ '/' :: last) = folder ++ '/' :: last := by
    rw [normalize_eq_render, rooted_append h.ne_nil, hlast.stack_append_slash h.ne_nil,
      render_cons (isProper_of_mem_stack folder) h.stack_ne_nil, ← eq_render_of_normal h.normal]
  refine ⟨hnormal, fun hslash ↦ ?_, fun hdot ↦ ?_⟩
  · exact h.ne_nil (eq_nil_of_append_slash_eq hlast.slash_notMem List.not_mem_nil hslash)
  · have hmem : '/' ∈ dot := hdot ▸ List.mem_append_right _ List.mem_cons_self
    exact absurd hmem (by decide)

/-- A plain segment behind a name leaves a normal form exactly when the name is one with a segment
of its own. -/
theorem normalize_append_slash_iff (hlast : IsPlain last) (hne : folder ≠ []) :
    normalize (folder ++ '/' :: last) = folder ++ '/' :: last ↔ IsNamed folder := by
  constructor
  · intro h
    exact (eq_nil_or_isNamed_of_normal h hlast.slash_notMem).resolve_left hne
  · intro h
    exact (h.append_slash hlast).normal

/-! ## Several segments more -/

variable {rest : Text}

/-- What stands in front of a separator in a normal form is a normal form with a segment. -/
theorem isNamed_of_normal_append_slash
    (h : normalize (folder ++ '/' :: rest) = folder ++ '/' :: rest) (hne : folder ≠ []) :
    IsNamed folder := by
  induction hlength : rest.length using Nat.strong_induction_on generalizing rest with
  | h length ih =>
    by_cases hmem : '/' ∈ rest
    · obtain ⟨front, last, rfl, hlast⟩ := exists_eq_append_slash hmem
      have hassoc : folder ++ '/' :: (front ++ '/' :: last) =
          (folder ++ '/' :: front) ++ '/' :: last := by simp
      rw [hassoc] at h
      have hfront := (eq_nil_or_isNamed_of_normal h hlast).resolve_left (by simp)
      refine ih front.length ?_ hfront.normal rfl
      rw [← hlength, List.length_append, List.length_cons]
      omega
    · exact (eq_nil_or_isNamed_of_normal h hmem).resolve_left hne

theorem IsNamed.append_joined {segments : List Text} (h : IsNamed folder)
    (hplain : ∀ s ∈ segments, IsPlain s) (hne : segments ≠ []) :
    IsNamed (folder ++ '/' :: slash.intercalate segments) := by
  induction segments generalizing folder with
  | nil => exact absurd rfl hne
  | cons first others ih =>
    obtain ⟨hfirst, hothers⟩ := List.forall_mem_cons.mp hplain
    by_cases hlast : others = []
    · rw [hlast, List.intercalate_singleton]
      exact h.append_slash hfirst
    · have hfolder := ih (h.append_slash hfirst) hothers hlast
      rwa [joined_cons hlast, ← List.cons_append, ← List.append_assoc]

theorem stack_append_slash_of_isPlain (hne : folder ≠ [])
    (hplain : ∀ s ∈ rest.splitOn '/', IsPlain s) :
    stack (folder ++ '/' :: rest) = (rest.splitOn '/').reverse ++ stack folder := by
  have hbackslash : '\\' ∉ rest := by
    rw [mem_iff_exists_mem_splitOn (by decide)]
    rintro ⟨segment, hsegment, hmem⟩
    exact (hplain segment hsegment).backslash_notMem hmem
  have hparts : parts rest = rest.splitOn '/' := by
    rw [parts, map_separator_of_notMem hbackslash, segments]
  rw [Path.stack_append_slash hne, hparts, ← List.reverse_reverse (rest.splitOn '/')]
  rw [foldl_push_reverse, List.reverse_reverse]
  · intro s hs
    exact (hplain s (List.mem_reverse.mp hs)).toIsProper
  · intro hup
    exact (hplain dotDot (List.mem_reverse.mp hup)).ne_dotDot rfl

/-- The segments of a normal form are those of its stack, behind an empty one at the root. -/
theorem splitOn_of_isNamed (h : IsNamed s) :
    s.splitOn '/' = (if rooted s then [[]] else []) ++ (stack s).reverse := by
  have hproper : ∀ segment ∈ (stack s).reverse, IsProper segment := fun segment hmem ↦
    isProper_of_mem_stack s segment (List.mem_reverse.mp hmem)
  have hsplit := splitOn_joined hproper (mt List.reverse_eq_nil_iff.mp h.stack_ne_nil)
  have hs := eq_render_of_normal h.normal
  cases hrooted : rooted s with
  | true =>
    rw [hrooted] at hs
    rw [if_pos rfl, ← hsplit]
    conv_lhs => rw [hs]
    exact segments_slash_cons _
  | false =>
    rw [hrooted, render_false_of_ne_nil (isProper_of_mem_stack s) h.stack_ne_nil] at hs
    rw [if_neg Bool.false_ne_true, List.nil_append, ← hsplit]
    conv_lhs => rw [hs]

/-- Behind a name that does not end with a segment that leads up, a normal form goes on with plain
segments, and every such name is a normal form. -/
theorem IsNamed.normalize_append_slash_iff (h : IsNamed folder)
    (htop : (stack folder).head? ≠ some dotDot) :
    normalize (folder ++ '/' :: rest) = folder ++ '/' :: rest ↔
      ∀ s ∈ rest.splitOn '/', IsPlain s := by
  constructor
  · intro hnormal
    have hnamed : IsNamed (folder ++ '/' :: rest) := by
      refine ⟨hnormal, fun hslash ↦ ?_, fun hdot ↦ ?_⟩
      · have hlength := congrArg List.length hslash
        rw [List.length_append, List.length_cons] at hlength
        have := List.length_pos_iff.mpr h.ne_nil
        simp only [slash, List.length_singleton] at hlength
        omega
      · have hmem : '/' ∈ dot := hdot ▸ List.mem_append_right _ List.mem_cons_self
        exact absurd hmem (by decide)
    have hsplit := splitOn_of_isNamed hnamed
    rw [List.splitOn_append_cons_self, splitOn_of_isNamed h, rooted_append h.ne_nil,
      List.append_assoc, List.append_cancel_left_eq] at hsplit
    have hstack := congrArg List.reverse hsplit
    rw [List.reverse_append, List.reverse_reverse, List.reverse_reverse] at hstack
    have hsettled := isSettled_stack (folder ++ '/' :: rest)
    obtain ⟨top, below, hbelow⟩ := List.exists_cons_of_ne_nil h.stack_ne_nil
    rw [← hstack, hbelow] at hsettled
    rw [hbelow, List.head?_cons] at htop
    obtain ⟨hup, -⟩ := hsettled.split fun hdotDot ↦ htop (congrArg some hdotDot)
    intro s hs
    have hmem : s ∈ (rest.splitOn '/').reverse ++ top :: below :=
      List.mem_append_left _ (List.mem_reverse.mpr hs)
    refine ⟨hsettled.proper s hmem, ?_, hsettled.plain s hmem⟩
    rintro rfl
    exact hup (List.mem_reverse.mpr hs)
  · intro hplain
    have hjoined := h.append_joined hplain (List.splitOn_ne_nil '/' rest)
    rw [slash, List.intercalate_splitOn] at hjoined
    exact hjoined.normal

end FencedCode.Path
