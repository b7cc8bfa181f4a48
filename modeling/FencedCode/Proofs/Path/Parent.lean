import FencedCode.Proofs.Path.Canonical
import Mathlib.Data.List.TakeWhile

/-!
# The folder in a name

The folder of a name is read off its letters, as everything before the last `/`. When the name ends
plainly, in a segment that every walk puts on top, this folder is one segment short of the name, so
it has one normal form in all spellings of the name. The folders of other spellings lie elsewhere: a
backslash is no `/`, and a name that ends in `/` is its own folder.
-/

namespace FencedCode.Path

/-! ## Spellings -/

theorem rooted_normalize (s : Text) : rooted (normalize s) = rooted s :=
  (isSettled_stack s).rooted_stack_render.1

theorem stack_normalize (s : Text) : stack (normalize s) = stack s :=
  (isSettled_stack s).rooted_stack_render.2

/-- The normal form of a name tells where the walk along it begins and ends. -/
theorem normalize_eq_normalize_iff {s t : Text} :
    normalize s = normalize t ↔ rooted s = rooted t ∧ stack s = stack t := by
  constructor
  · intro h
    rw [← rooted_normalize s, ← stack_normalize s, h, rooted_normalize, stack_normalize]
    exact ⟨rfl, rfl⟩
  · rintro ⟨hrooted, hstack⟩
    rw [normalize_eq_render, normalize_eq_render, hrooted, hstack]

/-- A separator more at the root makes no difference. -/
theorem normalize_slash_append_slash (name : Text) :
    normalize (slash ++ slash ++ name) = normalize ('/' :: name) := by
  have hparts : parts ('/' :: name) = [] :: parts name := parts_append_slash [] name
  refine normalize_eq_normalize_iff.mpr ⟨rfl, ?_⟩
  calc
    stack (slash ++ '/' :: name) = (parts name).foldl (push true) [] :=
      stack_append_slash (by decide) name
    _ = walk true (parts ('/' :: name)) := by
      rw [hparts]
      rfl

theorem isAbsolute_normalize {s : Text} (h : isAbsolute s) : isAbsolute (normalize s) := by
  obtain ⟨rest, rfl⟩ := exists_eq_slash_cons h
  have hrooted : rooted ('/' :: rest) = true := rfl
  rw [normalize_eq_render, hrooted]
  rfl

theorem normalize_join (folder name : Text) : normalize (join folder name) = join folder name := by
  unfold join
  split
  · exact normalize_normalize name
  · exact normalize_normalize (folder ++ slash ++ name)

/-- A relative name is walked along from where the walk along the folder ends. -/
theorem rooted_stack_join {folder name : Text} (h : folder ≠ []) (hname : ¬ isAbsolute name) :
    rooted (join folder name) = rooted folder ∧
      stack (join folder name) = (parts name).foldl (push (rooted folder)) (stack folder) := by
  have hcons : folder ++ slash ++ name = folder ++ '/' :: name := List.append_assoc _ _ _
  rw [join, if_neg hname, hcons, rooted_normalize, stack_normalize, rooted_append h,
    stack_append_slash h]
  exact ⟨rfl, rfl⟩

/-- A name means the same from all spellings of a folder. -/
theorem join_eq_join {folder other : Text} (h : normalize folder = normalize other)
    (hfolder : folder ≠ []) (hother : other ≠ []) (name : Text) :
    join folder name = join other name := by
  obtain ⟨hrooted, hstack⟩ := normalize_eq_normalize_iff.mp h
  by_cases hname : isAbsolute name
  · rw [join, if_pos hname, join, if_pos hname]
  · obtain ⟨hrooted', hstack'⟩ := rooted_stack_join hfolder hname
    rw [← normalize_join folder, ← normalize_join other, normalize_eq_normalize_iff, hrooted',
      hstack', hrooted, hstack]
    exact ⟨(rooted_stack_join hother hname).1.symm, (rooted_stack_join hother hname).2.symm⟩

/-! ## Plain segments -/

/-- A segment that every walk puts on top. -/
structure IsPlain (segment : Text) : Prop extends IsProper segment where
  ne_dotDot : segment ≠ dotDot
  backslash_notMem : '\\' ∉ segment

instance (segment : Text) : Decidable (IsPlain segment) :=
  decidable_of_iff ((segment ≠ [] ∧ segment ≠ dot ∧ '/' ∉ segment) ∧ segment ≠ dotDot ∧
      '\\' ∉ segment)
    ⟨fun h ↦ ⟨⟨h.1.1, h.1.2.1, h.1.2.2⟩, h.2.1, h.2.2⟩,
      fun h ↦ ⟨⟨h.ne_nil, h.ne_dot, h.slash_notMem⟩, h.ne_dotDot, h.backslash_notMem⟩⟩

theorem IsPlain.parts_eq {segment : Text} (h : IsPlain segment) : parts segment = [segment] :=
  parts_of_notMem h.slash_notMem h.backslash_notMem

theorem IsPlain.foldl_push_parts {segment : Text} (h : IsPlain segment) (absolute : Bool)
    (walked : List Text) : (parts segment).foldl (push absolute) walked = segment :: walked := by
  rw [h.parts_eq, List.foldl_cons, List.foldl_nil,
    push_of_ne (not_or.mpr ⟨h.ne_nil, h.ne_dot⟩) h.ne_dotDot]

theorem joined_append_singleton {segments : List Text} (h : segments ≠ []) (last : Text) :
    slash.intercalate (segments ++ [last]) = slash.intercalate segments ++ '/' :: last := by
  induction segments with
  | nil => exact absurd rfl h
  | cons first rest ih =>
    cases rest with
    | nil =>
      rw [List.singleton_append, List.intercalate_cons_cons, List.intercalate_singleton,
        List.intercalate_singleton, List.append_assoc]
      rfl
    | cons second others =>
      have hrest := ih (List.cons_ne_nil second others)
      rw [List.cons_append] at hrest
      rw [List.cons_append, List.cons_append, List.intercalate_cons_cons, hrest,
        List.intercalate_cons_cons, List.append_assoc, List.append_assoc, List.append_assoc]

theorem suffix_joined (segments : List Text) (last : Text) :
    last <:+ slash.intercalate (segments ++ [last]) := by
  by_cases h : segments = []
  · rw [h]
    exact ⟨[], List.intercalate_singleton.symm⟩
  · rw [joined_append_singleton h]
    exact (List.suffix_cons '/' last).trans (List.suffix_append _ _)

/-- A name ends in the last of its segments. -/
theorem IsPlain.suffix_render {segment : Text} (h : IsPlain segment) (absolute : Bool)
    (lower : List Text) : segment <:+ render absolute (segment :: lower) := by
  have hjoined := suffix_joined lower.reverse segment
  unfold render
  dsimp only
  rw [List.reverse_cons]
  split
  · exact hjoined.trans (List.suffix_cons _ _)
  · split
    · rename_i hempty
      rw [List.isEmpty_iff.mp hempty] at hjoined
      exact absurd (List.suffix_nil.mp hjoined) h.ne_nil
    · exact hjoined

/-- A plain name puts its segment on top of a folder. -/
theorem IsPlain.rooted_stack_join {segment folder : Text} (h : IsPlain segment)
    (hne : folder ≠ []) : rooted (join folder (dot ++ '/' :: segment)) = rooted folder ∧
      stack (join folder (dot ++ '/' :: segment)) = segment :: stack folder := by
  have hrelative : ¬ isAbsolute (dot ++ '/' :: segment) := Bool.false_ne_true
  have hdot : parts dot = [dot] := by decide
  obtain ⟨hrooted, hstack⟩ := Path.rooted_stack_join hne hrelative
  rw [parts_append_slash, hdot, List.singleton_append, List.foldl_cons, push_of_void (.inr rfl),
    h.foldl_push_parts] at hstack
  exact ⟨hrooted, hstack⟩

theorem IsPlain.suffix_join {segment folder : Text} (h : IsPlain segment) (hne : folder ≠ []) :
    segment <:+ join folder (dot ++ '/' :: segment) := by
  rw [← normalize_join, normalize_eq_render, (h.rooted_stack_join hne).2]
  exact h.suffix_render _ _

/-- Folders that have one file under a plain name are spellings of one folder. -/
theorem normalize_eq_of_join_dot_eq {segment folder other : Text} (h : IsPlain segment)
    (hfolder : folder ≠ []) (hother : other ≠ [])
    (hjoin : join folder (dot ++ '/' :: segment) = join other (dot ++ '/' :: segment)) :
    normalize folder = normalize other := by
  obtain ⟨hrooted, hstack⟩ := h.rooted_stack_join hfolder
  rw [hjoin, (h.rooted_stack_join hother).1] at hrooted
  rw [hjoin, (h.rooted_stack_join hother).2, List.cons.injEq] at hstack
  exact normalize_eq_normalize_iff.mpr ⟨hrooted.symm, hstack.2.symm⟩

/-! ## Folders -/

/-- What stands after the last `/` of a name. -/
def lastPart (s : Text) : Text := (s.reverse.takeWhile (· ≠ '/')).reverse

/-- The name ends in a plain segment. Before it there may be separators of both kinds and
segments that lead up. -/
def EndsPlainly (s : Text) : Prop := IsPlain (lastPart s)

instance (s : Text) : Decidable (EndsPlainly s) := inferInstanceAs (Decidable (IsPlain _))

theorem parent_ne_nil (s : Text) : parent s ≠ [] := by
  unfold parent
  split
  · split
    · decide
    · assumption
  · decide

theorem forall_mem_reverse_ne_slash {s : Text} (h : '/' ∉ s) :
    ∀ c ∈ s.reverse, decide (c ≠ '/') = true := by
  intro c hc
  rw [decide_eq_true_eq]
  rintro rfl
  exact h (List.mem_reverse.mp hc)

theorem takeWhile_dropWhile_of_notMem {last : Text} (h : '/' ∉ last) (front : Text) :
    (front ++ '/' :: last).reverse.takeWhile (· ≠ '/') = last.reverse ∧
      (front ++ '/' :: last).reverse.dropWhile (· ≠ '/') = '/' :: front.reverse := by
  have hall := forall_mem_reverse_ne_slash h
  have hreverse : (front ++ '/' :: last).reverse = last.reverse ++ '/' :: front.reverse := by simp
  rw [hreverse, List.takeWhile_append_of_pos hall, List.dropWhile_append_of_pos hall,
    List.takeWhile_cons_of_neg (by simp), List.dropWhile_cons_of_neg (by simp), List.append_nil]
  exact ⟨rfl, rfl⟩

/-- A name that has a separator is cut at the last one. -/
theorem exists_eq_append_slash {s : Text} (h : '/' ∈ s) :
    ∃ folder last, s = folder ++ '/' :: last ∧ '/' ∉ last := by
  obtain ⟨after, before, hreverse, hafter⟩ := List.eq_append_cons_of_mem (List.mem_reverse.mpr h)
  refine ⟨before.reverse, after.reverse, ?_, mt List.mem_reverse.mp hafter⟩
  rw [← List.reverse_inj, hreverse]
  simp

theorem lastPart_append_slash {last : Text} (h : '/' ∉ last) (folder : Text) :
    lastPart (folder ++ '/' :: last) = last := by
  rw [lastPart, (takeWhile_dropWhile_of_notMem h folder).1, List.reverse_reverse]

theorem parent_append_slash {last : Text} (h : '/' ∉ last) (folder : Text) :
    parent (folder ++ '/' :: last) = if folder = [] then slash else folder := by
  have hmem : '/' ∈ folder ++ '/' :: last := List.mem_append_right _ List.mem_cons_self
  rw [parent, if_pos hmem, (takeWhile_dropWhile_of_notMem h folder).2, List.drop_one,
    List.tail_cons, List.reverse_reverse]
  cases folder with
  | nil => rfl
  | cons c folder => rfl

/-- The folder of an absolute name is absolute. -/
theorem isAbsolute_parent {s : Text} (h : isAbsolute s) : isAbsolute (parent s) := by
  obtain ⟨folder, last, rfl, hlast⟩ := exists_eq_append_slash (slash_mem_of_isAbsolute h)
  rw [parent_append_slash hlast]
  split
  · rfl
  · rename_i hfolder
    rwa [isAbsolute_append hfolder] at h

/-- A name is its last part alone, or stands in a folder, which may be the root. -/
theorem eq_lastPart_or_exists_folder (s : Text) :
    (s = lastPart s ∧ parent s = dot) ∨ (s = '/' :: lastPart s ∧ parent s = slash) ∨
      ∃ folder, folder ≠ [] ∧ s = folder ++ '/' :: lastPart s ∧ parent s = folder := by
  by_cases h : '/' ∈ s
  · obtain ⟨folder, last, rfl, hlast⟩ := exists_eq_append_slash h
    rw [lastPart_append_slash hlast, parent_append_slash hlast]
    by_cases hfolder : folder = []
    · subst hfolder
      exact .inr (.inl ⟨rfl, rfl⟩)
    · exact .inr (.inr ⟨folder, hfolder, rfl, if_neg hfolder⟩)
  · rw [lastPart, List.takeWhile_eq_self_iff.mpr (forall_mem_reverse_ne_slash h),
      List.reverse_reverse, parent, if_neg h]
    exact .inl ⟨rfl, rfl⟩

/-- The folder of a name that ends plainly is one segment short of the name. -/
theorem EndsPlainly.rooted_stack_parent {s : Text} (h : EndsPlainly s) :
    rooted (parent s) = rooted s ∧ stack s = lastPart s :: stack (parent s) := by
  rcases eq_lastPart_or_exists_folder s with
    ⟨hs, hparent⟩ | ⟨hs, hparent⟩ | ⟨folder, hne, hs, hparent⟩
  · have hwalk : stack s = (parts (lastPart s)).foldl (push (rooted s)) [] := by
      rw [← hs, stack, walk]
    have hrooted : rooted s = false := by
      rw [rooted, hs, map_separator_of_notMem h.backslash_notMem, isAbsolute,
        decide_eq_false_iff_not]
      exact fun hhead ↦ h.slash_notMem (List.mem_of_mem_head? hhead)
    rw [hwalk, h.foldl_push_parts, hrooted, hparent]
    exact ⟨rfl, rfl⟩
  · have hwalk : stack s = (parts (lastPart s)).foldl (push true) [] := by
      have hparts := parts_append_slash [] (lastPart s)
      rw [List.nil_append, ← hs] at hparts
      rw [stack, hparts, hs]
      rfl
    rw [hwalk, h.foldl_push_parts, hparent, hs]
    exact ⟨rfl, rfl⟩
  · have hwalk : stack s = (parts (lastPart s)).foldl (push (rooted folder)) (stack folder) := by
      rw [← stack_append_slash hne, ← hs]
    have hrooted : rooted s = rooted folder := by
      rw [hs]
      exact rooted_append hne _
    rw [hwalk, h.foldl_push_parts, hparent, hrooted]
    exact ⟨rfl, rfl⟩

/-- Spellings of one name that end plainly lie in one folder. -/
theorem normalize_parent_eq {s t : Text} (hs : EndsPlainly s) (ht : EndsPlainly t)
    (h : normalize s = normalize t) : normalize (parent s) = normalize (parent t) := by
  obtain ⟨hrooted, hstack⟩ := normalize_eq_normalize_iff.mp h
  rw [hs.rooted_stack_parent.2, ht.rooted_stack_parent.2, List.cons.injEq] at hstack
  refine normalize_eq_normalize_iff.mpr ⟨?_, hstack.2⟩
  rw [hs.rooted_stack_parent.1, ht.rooted_stack_parent.1, hrooted]

end FencedCode.Path
