import FencedCode.Module.Resolver
import FencedCode.Proofs.Module.View
import FencedCode.Proofs.Path.Gap
import FencedCode.Proofs.Text.Cut
import Mathlib.Data.List.Forall2

/-!
# Stars of substitutions

A substitution is joined with its folder when the options are read, and the first star of the joined
path is replaced for each name. That comes to the substitution with its own star replaced and then
read from the folder only if the star comes through the joining: it has to be left, no star may
stand in front of it, and what replaces it must not come to be the beginning of a path.
-/

namespace FencedCode

open FencedCode.Path

/-! ## Stars -/

theorem star_mem_of_mem_parts {s segment : Text} (h : segment ∈ parts s) (hstar : '*' ∈ segment) :
    '*' ∈ s := by
  have hmem : '*' ∈ s.map separator :=
    (mem_iff_exists_mem_splitOn (by decide)).mpr ⟨segment, h, hstar⟩
  obtain ⟨c, hc, heq⟩ := List.mem_map.mp hmem
  unfold separator at heq
  split at heq
  · exact absurd heq (by decide)
  · exact heq ▸ hc

theorem star_mem_render_iff {absolute : Bool} {walked : List Text} :
    '*' ∈ render absolute walked ↔ ∃ s ∈ walked, '*' ∈ s := by
  have hjoined : '*' ∈ render absolute walked ↔ '*' ∈ slash.intercalate walked.reverse := by
    unfold render
    dsimp only
    split
    · exact List.mem_cons.trans (or_iff_right (by decide))
    · split
      · rename_i hempty
        rw [List.isEmpty_iff.mp hempty]
        decide
      · exact Iff.rfl
  rw [hjoined, mem_joined_iff (by decide)]
  simp only [List.mem_reverse]

theorem ne_dotDot_of_star_mem {segment : Text} (h : '*' ∈ segment) : segment ≠ dotDot := by
  rintro rfl
  exact absurd h (by decide)

theorem push_of_star_mem {segment : Text} (h : '*' ∈ segment) (absolute : Bool)
    (walked : List Text) : push absolute walked segment = segment :: walked := by
  apply push_of_ne _ (ne_dotDot_of_star_mem h)
  rintro (rfl | rfl)
  · exact List.not_mem_nil h
  · exact absurd h (by decide)

/-- A text with a star is no segment that a walk passes over, and neither is one around it. -/
theorem foldl_push_star {left right w : Text} (hleft : parts left = [left])
    (hright : parts right = [right]) (hw : parts w = [w]) (hstar : '*' ∈ w) (absolute : Bool)
    (walked : List Text) :
    (parts (left ++ w ++ right)).foldl (push absolute) walked = (left ++ w ++ right) :: walked := by
  have hparts : parts (left ++ w ++ right) = [left ++ w ++ right] :=
    parts_append_piece (parts_append_piece hleft hw) hright
  rw [hparts]
  exact push_of_star_mem (List.mem_append_left _ (List.mem_append_right _ hstar)) _ _

theorem exists_first_star {walked : List Text} (h : ∃ s ∈ walked, '*' ∈ s) :
    ∃ upper left right lower, walked = upper ++ (left ++ '*' :: right) :: lower ∧ '*' ∉ left ∧
      ∀ s ∈ lower, '*' ∉ s := by
  induction walked with
  | nil =>
    obtain ⟨s, hs, -⟩ := h
    exact absurd hs List.not_mem_nil
  | cons top walked ih =>
    by_cases hlower : ∃ s ∈ walked, '*' ∈ s
    · obtain ⟨upper, left, right, lower, rfl, hleft, hfree⟩ := ih hlower
      exact ⟨top :: upper, left, right, lower, rfl, hleft, hfree⟩
    · obtain ⟨s, hs, hstar⟩ := h
      rcases List.mem_cons.mp hs with rfl | hs
      · obtain ⟨left, right, rfl, hleft⟩ := List.eq_append_cons_of_mem hstar
        exact ⟨[], left, right, walked, rfl, hleft, fun s hs hmem ↦ hlower ⟨s, hs, hmem⟩⟩
      · exact absurd ⟨s, hs, hstar⟩ hlower

theorem rooted_replaceFirst {s w : Text} (h : s.head? = some '*' → w ≠ [] ∧ ¬ rooted w) :
    rooted (Text.replaceFirst '*' w s) = rooted s := by
  by_cases hstar : '*' ∈ s
  · obtain ⟨front, back, rfl, hfront⟩ := List.eq_append_cons_of_mem hstar
    rw [Text.replaceFirst_append_cons hfront, List.append_assoc]
    cases front with
    | nil =>
      obtain ⟨hne, hrooted⟩ := h rfl
      rw [List.nil_append, rooted_append hne, Bool.eq_false_iff.mpr hrooted]
      rfl
    | cons c front =>
      rfl
  · rw [Text.replaceFirst_of_notMem hstar]

variable {absolute : Bool} {upper lower : List Text} {left right : Text}

/-- What stands before the star and what stands behind it are names of the same segments. -/
theorem parts_around_star (h : IsSettled absolute (upper ++ (left ++ '*' :: right) :: lower)) :
    parts (slash.intercalate (lower.reverse ++ [left])) = lower.reverse ++ [left] ∧
      parts (slash.intercalate (right :: upper.reverse)) = right :: upper.reverse := by
  have hsegment : left ++ '*' :: right ∈ upper ++ (left ++ '*' :: right) :: lower := by simp
  have hpieces : ∀ c, c ∉ left ++ '*' :: right → c ∉ left ∧ c ∉ right := by
    intro c hc
    rw [List.mem_append, List.mem_cons, not_or, not_or] at hc
    exact ⟨hc.1, hc.2.2⟩
  have hslash := hpieces '/' (h.proper _ hsegment).slash_notMem
  have hbackslash := hpieces '\\' (h.plain _ hsegment)
  constructor
  · apply parts_joined (by simp)
    · refine List.forall_mem_append.mpr ⟨fun s hs ↦ ?_, List.forall_mem_singleton.mpr hslash.1⟩
      exact (h.proper s (by simp [List.mem_reverse.mp hs])).slash_notMem
    · refine List.forall_mem_append.mpr ⟨fun s hs ↦ ?_, List.forall_mem_singleton.mpr hbackslash.1⟩
      exact h.plain s (by simp [List.mem_reverse.mp hs])
  · apply parts_joined (by simp)
    · refine List.forall_mem_cons.mpr ⟨hslash.2, fun s hs ↦ ?_⟩
      exact (h.proper s (by simp [List.mem_reverse.mp hs])).slash_notMem
    · refine List.forall_mem_cons.mpr ⟨hbackslash.2, fun s hs ↦ ?_⟩
      exact h.plain s (by simp [List.mem_reverse.mp hs])

/-- The first star of a normal form stands in the first segment with a star. -/
theorem exists_render_eq (h : IsSettled absolute (upper ++ (left ++ '*' :: right) :: lower))
    (hleft : '*' ∉ left) (hlower : ∀ s ∈ lower, '*' ∉ s) :
    ∃ front lead back, '*' ∉ front ∧ parts front = lead ++ [left] ∧
      walk absolute lead = lower ∧ parts back = right :: upper.reverse ∧
      render absolute (upper ++ (left ++ '*' :: right) :: lower) = front ++ '*' :: back := by
  obtain ⟨hfront, hback⟩ := parts_around_star h
  have hwalk := (h.split (ne_dotDot_of_star_mem (by simp))).2
  have hstar : '*' ∉ slash.intercalate (lower.reverse ++ [left]) := by
    rw [mem_joined_iff (by decide)]
    rintro ⟨s, hs, hmem⟩
    rcases List.mem_append.mp hs with hs | hs
    · exact hlower s (List.mem_reverse.mp hs) hmem
    · exact hleft (List.mem_singleton.mp hs ▸ hmem)
  have hjoined : slash.intercalate (upper ++ (left ++ '*' :: right) :: lower).reverse =
      slash.intercalate (lower.reverse ++ [left]) ++
        '*' :: slash.intercalate (right :: upper.reverse) := by
    rw [← List.intercalate_cons_cons_left, joined_append_joined]
    simp
  cases absolute with
  | true =>
    refine ⟨'/' :: slash.intercalate (lower.reverse ++ [left]), [] :: lower.reverse, _, ?_, ?_,
      hwalk, hback, congrArg ('/' :: ·) hjoined⟩
    · exact List.not_mem_cons_of_ne_of_not_mem (by decide) hstar
    · have hroot := parts_append_slash [] (slash.intercalate (lower.reverse ++ [left]))
      rw [hfront] at hroot
      exact hroot
  | false =>
    refine ⟨_, lower.reverse, _, hstar, hfront, hwalk, hback, ?_⟩
    rw [render_false_of_ne_nil h.proper (by simp), hjoined]

/-- What replaces the first star of a normal form makes one piece with what stands around the star,
and the other segments stay. -/
theorem stack_replaceFirst {path w : Text} (hpath : normalize path = path)
    (hstack : stack path = upper ++ (left ++ '*' :: right) :: lower) (hleft : '*' ∉ left)
    (hlower : ∀ s ∈ lower, '*' ∉ s)
    (hrooted : rooted (Text.replaceFirst '*' w path) = rooted path) :
    stack (Text.replaceFirst '*' w path) =
      upper ++ (parts (left ++ w ++ right)).foldl (push (rooted path)) lower := by
  have hsettled := isSettled_stack path
  rw [hstack] at hsettled
  obtain ⟨front, lead, back, hfront, hparts, hwalk, hback, hrender⟩ :=
    exists_render_eq hsettled hleft hlower
  have heq : path = front ++ '*' :: back := by
    rw [← hrender, ← hstack, ← normalize_eq_render, hpath]
  have hreplaced : Text.replaceFirst '*' w path = front ++ w ++ back := by
    rw [heq, Text.replaceFirst_append_cons hfront]
  have hupper := (hsettled.split (ne_dotDot_of_star_mem (by simp))).1
  rw [hreplaced] at hrooted ⊢
  rw [stack_append_append hparts hback, hrooted, hwalk,
    foldl_push_reverse (fun s hs ↦ hsettled.proper s (by simp [hs])) hupper]

def doubleStar : Text := ['*', '*']

theorem rooted_replaceFirst_doubleStar (s : Text) :
    rooted (Text.replaceFirst '*' doubleStar s) = rooted s :=
  rooted_replaceFirst fun _ ↦ ⟨by decide, by decide⟩

theorem append_doubleStar_ne (left right : Text) :
    left ++ doubleStar ++ right ≠ left ++ '*' :: right := by
  intro h
  have hlength := congrArg List.length h
  simp [doubleStar] at hlength

/-- The segment with the first star keeps its place when the star is doubled. -/
theorem stack_replaceFirst_doubleStar {path : Text} (hpath : normalize path = path)
    (hstack : stack path = upper ++ (left ++ '*' :: right) :: lower) (hleft : '*' ∉ left)
    (hlower : ∀ s ∈ lower, '*' ∉ s) : stack (Text.replaceFirst '*' doubleStar path) =
      upper ++ (left ++ doubleStar ++ right) :: lower := by
  have hmem : left ++ '*' :: right ∈ stack path := by simp [hstack]
  have hslash := (isProper_of_mem_stack path _ hmem).slash_notMem
  have hbackslash := (isSettled_stack path).plain _ hmem
  rw [List.mem_append, List.mem_cons, not_or, not_or] at hslash hbackslash
  rw [stack_replaceFirst hpath hstack hleft hlower (rooted_replaceFirst_doubleStar path),
    foldl_push_star (parts_of_notMem hslash.1 hbackslash.1)
      (parts_of_notMem hslash.2.2 hbackslash.2.2) (by decide) (by decide)]

theorem candidate_doubleStar_ne {path : Text} (hpath : normalize path = path)
    (hstar : '*' ∈ path) : Mapping.candidate doubleStar path ≠ path := by
  have hrender : '*' ∈ render (rooted path) (stack path) := by
    rwa [← normalize_eq_render, hpath]
  obtain ⟨upper, left, right, lower, hstack, hleft, hlower⟩ :=
    exists_first_star (star_mem_render_iff.mp hrender)
  intro h
  have hsame : stack (Text.replaceFirst '*' doubleStar path) = stack path := by
    rw [← stack_normalize, ← Mapping.candidate, h]
  rw [stack_replaceFirst_doubleStar hpath hstack hleft hlower, hstack,
    List.append_cancel_left_eq] at hsame
  exact append_doubleStar_ne left right (List.cons.inj hsame).1

/-! ## Substitutions that are read from a folder -/

/-- The first star of a substitution, which stands between `front` and `back`, comes through the
joining with the folder. -/
structure KeepsStar (base front back : Text) : Prop where
  /-- No folder that the segment of the star stands in has a star. -/
  folders_free : ∀ s ∈ folders (spelled base front), '*' ∉ s
  /-- What follows the segment of the star does not lead up beyond its own beginning. -/
  stays : dotDot ∉ walk false (parts back).tail
  /-- What replaces the star does not come to begin the joined path. -/
  head_ne : (join base (front ++ '*' :: back)).head? ≠ some '*'
  /-- What replaces a star at the beginning may be absolute, and is then read from the root. -/
  base_eq : front = [] → base = slash

variable {base front back : Text}

theorem join_star (base front back : Text) :
    join base (front ++ '*' :: back) = normalize (spelled base front ++ ['*'] ++ back) := by
  rw [join_append ('*' :: back) (fun _ ↦ .inr Bool.false_ne_true), List.append_assoc,
    List.singleton_append]

theorem rooted_join_star (base front back : Text) :
    rooted (join base (front ++ '*' :: back)) = rooted (spelled base front) := by
  rw [join_star, rooted_normalize, rooted_gap (spelled_ne_nil base front)]

theorem stack_star {up : Nat} {down : List Text} (hleads : Leads (parts back).tail up down)
    {w : Text} (hw : parts w = [w]) (hstar : '*' ∈ w) : stack (spelled base front ++ w ++ back) =
      down ++ climb (rooted (spelled base front)) up
        ((lastSegment front ++ w ++ firstSegment back) :: folders (spelled base front)) := by
  rw [stack_gap (spelled_ne_nil base front) hleads, lastSegment_spelled,
    foldl_push_star (parts_lastSegment front) (parts_firstSegment back) hw hstar]

theorem stack_join_star (h : dotDot ∉ walk false (parts back).tail) (base front : Text) :
    stack (join base (front ++ '*' :: back)) = walk false (parts back).tail ++
      (lastSegment front ++ '*' :: firstSegment back) :: folders (spelled base front) := by
  rw [join_star, stack_normalize, stack_star (leads_zero h) (by decide) (by decide),
    List.append_assoc, List.singleton_append, climb]

/-- A star that comes through the joining can be replaced before it or after it. -/
theorem KeepsStar.candidate_eq (h : KeepsStar base front back) (hfront : '*' ∉ front) (w : Text) :
    Mapping.candidate w (join base (front ++ '*' :: back)) = join base (front ++ (w ++ back)) := by
  have hfree : '*' ∉ lastSegment front := fun hmem ↦
    hfront (star_mem_of_mem_parts (lastSegment_mem front) hmem)
  have hreplaced := rooted_replaceFirst (w := w) fun hhead ↦ absurd hhead h.head_ne
  have hjoin := join_append (w ++ back) fun hnil ↦ .inl (h.base_eq hnil)
  have hne := spelled_ne_nil base front
  rw [hjoin, ← List.append_assoc, Mapping.candidate, normalize_eq_normalize_iff, hreplaced,
    stack_replaceFirst (normalize_join _ _) (stack_join_star h.stays base front) hfree
      h.folders_free hreplaced,
    rooted_join_star, rooted_gap hne, stack_gap hne (leads_zero h.stays), lastSegment_spelled]
  exact ⟨rfl, rfl⟩

/-! ## Stars that get lost -/

/-- The star can be replaced before or after the joining, whatever it is replaced by. -/
def Commutes (base front back : Text) : Prop :=
  ∀ w, Mapping.candidate w (join base (front ++ '*' :: back)) = join base (front ++ (w ++ back))

theorem Commutes.candidate_eq (h : Commutes base front back) {w : Text}
    (hw : ¬ isAbsolute (w ++ back)) : Mapping.candidate w (join base (front ++ '*' :: back)) =
      normalize (spelled base front ++ w ++ back) := by
  rw [h w, join_append _ fun _ ↦ .inr hw, List.append_assoc]

theorem foldl_push_of_stars {segments : List Text} (h : ∀ s ∈ segments, '*' ∈ s) (absolute : Bool)
    (walked : List Text) : segments.foldl (push absolute) walked = segments.reverse ++ walked := by
  induction segments generalizing walked with
  | nil => rfl
  | cons segment rest ih =>
    obtain ⟨hfirst, hrest⟩ := List.forall_mem_cons.mp h
    rw [List.foldl_cons, push_of_star_mem hfirst, ih hrest, List.reverse_cons, List.append_assoc,
      List.singleton_append]

/-- Of stars in enough folders one is left when the others are taken off again. -/
theorem exists_climb_stars {last first : Text} (hlast : parts last = [last])
    (hfirst : parts first = [first]) (up : Nat) (absolute : Bool) (walked : List Text) :
    ∃ w : Text, w.head? = some '*' ∧ climb absolute (up + 1)
      ((parts (last ++ w ++ first)).foldl (push absolute) walked) = (last ++ ['*']) :: walked := by
  have hstars : ∀ s ∈ List.replicate (up + 2) ['*'], s = ['*'] := fun s hs ↦
    List.eq_of_mem_replicate hs
  have hparts : parts (slash.intercalate (List.replicate (up + 2) ['*'])) =
      List.replicate (up + 1) ['*'] ++ [['*']] := by
    rw [parts_joined (by simp) (fun s hs ↦ hstars s hs ▸ by decide)
      (fun s hs ↦ hstars s hs ▸ by decide), List.replicate_succ']
  have hall : parts (last ++ slash.intercalate (List.replicate (up + 2) ['*']) ++ first) =
      (last ++ ['*']) :: (List.replicate up ['*'] ++ [['*'] ++ first]) := by
    rw [List.append_assoc]
    exact parts_append_piece hlast (parts_append hparts hfirst)
  have hfolders : ∀ s ∈ List.replicate up ['*'] ++ [['*'] ++ first], '*' ∈ s := by
    intro s hs
    rcases List.mem_append.mp hs with hs | hs
    · exact List.eq_of_mem_replicate hs ▸ List.mem_cons_self
    · exact List.mem_singleton.mp hs ▸ List.mem_cons_self
  have hdown : dotDot ∉ (List.replicate up ['*'] ++ [['*'] ++ first]).reverse := fun hmem ↦
    ne_dotDot_of_star_mem (hfolders _ (List.mem_reverse.mp hmem)) rfl
  have hlength : (List.replicate up ['*'] ++ [['*'] ++ first]).reverse.length = up + 1 := by simp
  refine ⟨slash.intercalate (List.replicate (up + 2) ['*']), ?_, ?_⟩
  · rw [List.replicate_succ, joined_cons (by simp)]
    rfl
  · rw [hall, List.foldl_cons, push_of_star_mem (by simp), foldl_push_of_stars hfolders,
      climb_append hdown absolute hlength.ge, List.drop_left' hlength]

/-- A star that gets lost takes with it what it is replaced by, unless that leads down far
enough. -/
theorem Commutes.stays (h : Commutes base front back) :
    dotDot ∉ walk false (parts back).tail := by
  intro hup
  obtain ⟨up, down, hleads⟩ := exists_leads_succ hup
  have hne := spelled_ne_nil base front
  have hgone (w : Text) (hw : parts w = [w]) (hstar : '*' ∈ w) :
      stack (spelled base front ++ w ++ back) = down ++
        climb (rooted (spelled base front)) up (folders (spelled base front)) := by
    rw [stack_star hleads hw hstar, climb,
      push_dotDot_cons (ne_dotDot_of_star_mem (by simp [hstar]))]
  -- One star or two of them get lost alike, so the joined path has no star that could be doubled.
  have hdouble : Mapping.candidate doubleStar (join base (front ++ '*' :: back)) =
      join base (front ++ '*' :: back) := by
    rw [h.candidate_eq (w := doubleStar) Bool.false_ne_true, join_star,
      normalize_eq_normalize_iff, rooted_gap hne, rooted_gap hne,
      hgone _ (by decide) (by decide), hgone _ (by decide) (by decide)]
    exact ⟨rfl, rfl⟩
  have hfree : '*' ∉ join base (front ++ '*' :: back) := fun hmem ↦
    candidate_doubleStar_ne (normalize_join _ _) hmem hdouble
  -- Then nothing is ever replaced, but of stars in enough folders one would be left.
  obtain ⟨w, hhead, hclimb⟩ := exists_climb_stars (parts_lastSegment front)
    (parts_firstSegment back) up (rooted (spelled base front)) (folders (spelled base front))
  have hrelative : ¬ isAbsolute (w ++ back) := by
    rw [isAbsolute, List.head?_append, hhead]
    exact Bool.false_ne_true
  have hsame := h.candidate_eq hrelative
  rw [Mapping.candidate, Text.replaceFirst_of_notMem hfree, normalize_join] at hsame
  apply hfree
  rw [hsame, normalize_eq_render, star_mem_render_iff, stack_gap hne hleads, lastSegment_spelled,
    hclimb]
  exact ⟨lastSegment front ++ ['*'], by simp, by simp⟩

/-- A star of the folder would be doubled in the place of the star. -/
theorem Commutes.folders_free (h : Commutes base front back) :
    ∀ s ∈ folders (spelled base front), '*' ∉ s := by
  intro s hs hmem
  obtain ⟨upper, left, right, lower, hfolders, hleft, hlower⟩ := exists_first_star ⟨s, hs, hmem⟩
  have hjoined := stack_join_star h.stays base front
  have hsplit := hjoined
  rw [hfolders, ← List.cons_append, ← List.append_assoc] at hsplit
  have hstack := congrArg stack (h.candidate_eq (w := doubleStar) Bool.false_ne_true)
  rw [Mapping.candidate, stack_normalize, stack_normalize,
    stack_replaceFirst_doubleStar (normalize_join _ _) hsplit hleft hlower,
    stack_star (leads_zero h.stays) (by decide) (by decide), List.append_assoc,
    List.append_cancel_left_eq, List.cons_append] at hstack
  exact append_doubleStar_ne _ _ (List.cons.inj hstack).1.symm

theorem Commutes.head_ne (h : Commutes base front back) :
    (join base (front ++ '*' :: back)).head? ≠ some '*' := by
  intro hhead
  obtain ⟨rest, hjoin⟩ := List.head?_eq_some_iff.mp hhead
  have hrooted := (normalize_eq_normalize_iff.mp
    (h.candidate_eq (w := ['\\']) Bool.false_ne_true)).1
  have hreplaced : Text.replaceFirst '*' ['\\'] ('*' :: rest) = ['\\'] ++ rest :=
    Text.replaceFirst_append_cons List.not_mem_nil _ _
  rw [rooted_gap (spelled_ne_nil base front), ← rooted_join_star base front back, hjoin,
    hreplaced] at hrooted
  exact Bool.false_ne_true hrooted.symm

/-- A text that begins with a separator would be absolute in front of a substitution, and behind its
folder it is not. -/
theorem Commutes.base_eq (h : Commutes base front back) (hbase : normalize base = base)
    (hnil : front = []) : base = slash := by
  subst hnil
  have hne : base ≠ [] := by
    rintro rfl
    exact absurd hbase (by decide)
  have hspelled : spelled base [] = base ++ '/' :: [] := List.append_nil (base ++ slash)
  have hfolders : folders (spelled base []) = stack base := by
    rw [folders, hspelled, rooted_append hne, parts_append_slash]
    exact congrArg (walk (rooted base)) List.dropLast_concat
  have hreplaced := rooted_replaceFirst (w := ['/', '*']) fun hhead ↦ absurd hhead h.head_ne
  have hjoin : join base ([] ++ (['/', '*'] ++ back)) = normalize (slash ++ ['*'] ++ back) := rfl
  have hsame := h ['/', '*']
  rw [hjoin, Mapping.candidate, normalize_eq_normalize_iff, hreplaced,
    stack_replaceFirst (normalize_join _ _) (stack_join_star h.stays base []) List.not_mem_nil
      h.folders_free hreplaced,
    stack_gap (s := slash) (by decide) (leads_zero h.stays), List.append_cancel_left_eq,
    hfolders] at hsame
  obtain ⟨hrooted, hstack⟩ := hsame
  rw [rooted_join_star, hspelled, rooted_append hne] at hrooted hstack
  have habsolute : rooted base = true := hrooted
  have hpiece : parts (['*'] ++ firstSegment back) = [['*'] ++ firstSegment back] :=
    parts_append_piece (by decide) (parts_firstSegment back)
  have hbehind : (parts (['/', '*'] ++ firstSegment back)).foldl (push (rooted base)) (stack base) =
      (['*'] ++ firstSegment back) :: stack base := by
    have hparts : parts (['/', '*'] ++ firstSegment back) =
        parts [] ++ parts (['*'] ++ firstSegment back) := parts_append_slash [] _
    rw [hparts, hpiece]
    exact push_of_star_mem List.mem_cons_self (rooted base) (stack base)
  have hroot : (parts (['*'] ++ firstSegment back)).foldl (push true) [] =
      [['*'] ++ firstSegment back] := by
    rw [hpiece]
    exact push_of_star_mem List.mem_cons_self true []
  have hempty : stack base = [] := (List.cons.inj (hbehind.symm.trans (hstack.trans hroot))).2
  rw [← hbase, normalize_eq_render, hempty, habsolute]
  rfl

theorem keepsStar_of_commutes (h : Commutes base front back) (hbase : normalize base = base) :
    KeepsStar base front back :=
  ⟨h.folders_free, h.stays, h.head_ne, h.base_eq hbase⟩

/-- The star of a substitution, if it has one, comes through the joining with the folder, and a
substitution that has none gets none. -/
def StaysInPlace (base t : Text) : Prop :=
  match Text.splitFirst '*' t with
  | none => '*' ∉ join base t
  | some (front, back) => KeepsStar base front back

/-- Replacing the star of the joined path comes to replacing that of the substitution exactly when
the star stays in its place. -/
theorem candidate_join_iff {base : Text} (hbase : normalize base = base) (t : Text) :
    (∀ w, Mapping.candidate w (join base t) = join base (Text.replaceFirst '*' w t)) ↔
      StaysInPlace base t := by
  unfold StaysInPlace
  cases hsplit : Text.splitFirst '*' t with
  | none =>
    have hfree := Text.splitFirst_eq_none_iff.mp hsplit
    constructor
    · intro h hmem
      refine candidate_doubleStar_ne (normalize_join base t) hmem ?_
      rw [h, Text.replaceFirst_of_notMem hfree]
    · intro hstar w
      rw [Mapping.candidate, Text.replaceFirst_of_notMem hstar, Text.replaceFirst_of_notMem hfree,
        normalize_join]
  | some cut =>
    obtain ⟨front, back⟩ := cut
    obtain ⟨rfl, hfront⟩ := Text.splitFirst_eq_some_iff.mp hsplit
    have hreplaced (w : Text) :
        Text.replaceFirst '*' w (front ++ '*' :: back) = front ++ (w ++ back) := by
      rw [Text.replaceFirst_append_cons hfront, List.append_assoc]
    simp only [hreplaced]
    exact ⟨fun h ↦ keepsStar_of_commutes h hbase, fun h w ↦ h.candidate_eq hfront w⟩

namespace ResolverConfig

theorem ofOptions_mappings {options : CompilerOptions} {base : Text}
    (h : mappingFolder options = some base) : (ofOptions options).mappings =
      options.paths.map fun (pattern, targets) ↦ ⟨pattern, targets.map (join base)⟩ := by
  rw [ofOptions, h]

theorem normalize_of_mappingFolder {options : CompilerOptions} {base : Text}
    (h : mappingFolder options = some base) : normalize base = base := by
  obtain ⟨folder, -, rfl⟩ := Option.map_eq_some_iff.mp h
  exact normalize_normalize folder

/-- The substitutions of a pattern are tried with what its star stands for in their own stars, read
from the folder of the options, exactly when every star stays in its place. -/
theorem mappings_substitute_iff {options : CompilerOptions} {base : Text}
    (h : mappingFolder options = some base) :
    List.Forall₂ (fun (m : Mapping) (entry : Text × List Text) ↦ m.pattern = entry.1 ∧
      ((∀ w, m.substitutions.map (Mapping.candidate w) =
          entry.2.map fun t ↦ join base (Text.replaceFirst '*' w t)) ↔
        ∀ t ∈ entry.2, StaysInPlace base t))
      (ofOptions options).mappings options.paths := by
  have hbase := normalize_of_mappingFolder h
  rw [ofOptions_mappings h, List.forall₂_map_left_iff, List.forall₂_same]
  intro entry _
  refine ⟨rfl, ?_⟩
  simp only [List.map_map, List.map_inj_left, Function.comp_apply, ← candidate_join_iff hbase]
  exact ⟨fun hall t ht w ↦ hall w t ht, fun hall w t ht ↦ hall t ht w⟩

/-- Options with a base folder, and with one pattern that has one substitution. -/
def libraryOptions (base substitution : Text) : CompilerOptions :=
  .ofFields [(CompilerOptions.baseUrlKey, .string base),
    (CompilerOptions.pathsKey, .object [("@lib/*".toList, .array [.string substitution])])]

theorem mappings_substitute_plain_base :
    mappingFolder (libraryOptions "/p".toList "src/*".toList) = some "/p".toList ∧
      ∀ w, [Mapping.candidate w "/p/src/*".toList] =
        ["src/*".toList].map fun t ↦ join "/p".toList (Text.replaceFirst '*' w t) := by
  have hfolder : mappingFolder (libraryOptions "/p".toList "src/*".toList) =
      some "/p".toList := by decide
  have hkeeps : KeepsStar "/p".toList "src/".toList [] :=
    ⟨by decide, by decide, by decide, by decide⟩
  obtain ⟨-, hiff⟩ := (List.forall₂_cons.mp (mappings_substitute_iff hfolder)).1
  exact ⟨hfolder, hiff.mpr (List.forall_mem_singleton.mpr hkeeps)⟩

def starredView : FileView where
  fileExists path := path == "/p*q/src/util.ts".toList
  folderExists _ := false
  readText _ := none

/-- A star of the base folder is replaced in the place of that of the substitution. -/
theorem mappings_substitute_starred_base :
    mappingFolder (libraryOptions "/p*q".toList "src/*".toList) = some "/p*q".toList ∧
      (libraryOptions "/p*q".toList "src/*".toList).paths =
        [("@lib/*".toList, ["src/*".toList])] ∧
      (∃ m w, Mapping.choose "@lib/util".toList
          (ofOptions (libraryOptions "/p*q".toList "src/*".toList)).mappings = some (m, w) ∧
        m.substitutions.map (Mapping.candidate w) = ["/putilq/src/*".toList] ∧
        (["src/*".toList].map fun t ↦ join "/p*q".toList (Text.replaceFirst '*' w t)) =
          ["/p*q/src/util".toList]) ∧
      starredView.eval (Lookup.fileOrFolder "/p*q/src/util".toList) =
        some "/p*q/src/util.ts".toList ∧
      starredView.eval ((ofOptions (libraryOptions "/p*q".toList "src/*".toList)).mapped
        "@lib/util".toList) = none :=
  ⟨by decide, by decide, ⟨⟨"@lib/*".toList, ["/p*q/src/*".toList]⟩, "util".toList, by decide,
    by decide, by decide⟩, by decide, by decide⟩

end ResolverConfig

end FencedCode
