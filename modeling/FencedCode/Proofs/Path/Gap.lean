import FencedCode.Proofs.Path.Parent

/-!
# Names around a gap

A text that is put into a name between a beginning and an ending makes one piece with the last
segment of the beginning and the first segment of the ending. The other segments of the name stay
what they are, so the walk along the name goes through the beginning, through the piece, and through
the ending. In a normal form nothing behind a segment that names something leads up.
-/

namespace FencedCode.Path

/-! ## Segments -/

theorem joined_cons {rest : List Text} (h : rest ≠ []) (first : Text) :
    slash.intercalate (first :: rest) = first ++ '/' :: slash.intercalate rest := by
  rw [List.intercalate_cons_of_ne_nil h, List.append_assoc]
  rfl

theorem joined_append_joined (front : List Text) (last first : Text) (back : List Text) :
    slash.intercalate (front ++ [last]) ++ slash.intercalate (first :: back) =
      slash.intercalate (front ++ (last ++ first) :: back) := by
  induction front with
  | nil =>
    rw [List.nil_append, List.nil_append, List.intercalate_singleton]
    cases back with
    | nil => rw [List.intercalate_singleton, List.intercalate_singleton]
    | cons second back =>
      rw [joined_cons (List.cons_ne_nil _ _), joined_cons (List.cons_ne_nil _ _),
        List.append_assoc]
  | cons segment front ih =>
    rw [List.cons_append, List.cons_append, joined_cons (by simp) segment,
      joined_cons (by simp) segment, ← ih, List.append_assoc, List.cons_append]

theorem joined_parts (s : Text) : slash.intercalate (parts s) = s.map separator :=
  List.intercalate_splitOn '/'

theorem parts_ne_nil (s : Text) : parts s ≠ [] := List.splitOn_ne_nil '/' _

theorem slash_notMem_of_mem_parts {s segment : Text} (h : segment ∈ parts s) : '/' ∉ segment :=
  slash_notMem_of_mem_splitOn segment h

theorem parts_of_mem_parts {s segment : Text} (h : segment ∈ parts s) :
    parts segment = [segment] :=
  parts_of_notMem (slash_notMem_of_mem_parts h) (backslash_notMem_of_mem_parts h)

variable {s t first last : Text} {front back : List Text}

theorem parts_append (hs : parts s = front ++ [last]) (ht : parts t = first :: back) :
    parts (s ++ t) = front ++ (last ++ first) :: back := by
  have hmem : last ∈ parts s ∧ first ∈ parts t := by simp [hs, ht]
  have hpieces : ∀ segment ∈ front ++ (last ++ first) :: back, '/' ∉ segment := by
    intro segment hsegment
    rcases List.mem_append.mp hsegment with hfront | hrest
    · exact slash_notMem_of_mem_parts (s := s) (hs ▸ List.mem_append_left _ hfront)
    · rcases List.mem_cons.mp hrest with rfl | hback
      · rw [List.mem_append, not_or]
        exact ⟨slash_notMem_of_mem_parts hmem.1, slash_notMem_of_mem_parts hmem.2⟩
      · exact slash_notMem_of_mem_parts (s := t) (ht ▸ List.mem_cons_of_mem _ hback)
  rw [parts, List.map_append, ← joined_parts, ← joined_parts, hs, ht, joined_append_joined]
  exact List.splitOn_intercalate '/' hpieces (by simp)

theorem parts_append_piece (hs : parts s = [last]) (ht : parts t = first :: back) :
    parts (s ++ t) = (last ++ first) :: back := by
  have hlast : parts s = [] ++ [last] := hs
  rw [parts_append hlast ht, List.nil_append]

theorem parts_append_left (hs : parts s = front ++ [last]) (t : Text) :
    parts (s ++ t) = front ++ parts (last ++ t) := by
  obtain ⟨first, back, ht⟩ := List.exists_cons_of_ne_nil (parts_ne_nil t)
  have hlast : parts last = [last] := parts_of_mem_parts (s := s) (by simp [hs])
  rw [parts_append hs ht, parts_append_piece hlast ht]

theorem parts_append_right (ht : parts t = first :: back) (s : Text) :
    parts (s ++ t) = parts (s ++ first) ++ back := by
  have hs := (List.dropLast_concat_getLast (parts_ne_nil s)).symm
  have hfirst : parts first = [first] := parts_of_mem_parts (s := t) (by simp [ht])
  rw [parts_append hs ht, parts_append hs hfirst, List.append_assoc, List.singleton_append]

/-- What stands in a gap is walked along from where the beginning leads, in one piece with the
segments at its sides. -/
theorem stack_append_append (hs : parts s = front ++ [last]) (ht : parts t = first :: back)
    (w : Text) : stack (s ++ w ++ t) = back.foldl (push (rooted (s ++ w ++ t)))
      ((parts (last ++ w ++ first)).foldl (push (rooted (s ++ w ++ t)))
        (walk (rooted (s ++ w ++ t)) front)) := by
  have hparts : parts (s ++ w ++ t) = front ++ parts (last ++ w ++ first) ++ back := by
    rw [parts_append_right ht, List.append_assoc s, parts_append_left hs, ← List.append_assoc last]
  rw [stack, walk, hparts, List.foldl_append, List.foldl_append, walk]

/-! ## Normal forms -/

theorem eq_dotDot_of_mem_climb_nil {absolute : Bool} {up : Nat} {segment : Text}
    (h : segment ∈ climb absolute up []) : segment = dotDot := by
  cases absolute with
  | true =>
    rw [climb_true_nil] at h
    exact absurd h List.not_mem_nil
  | false =>
    rw [climb_false_nil] at h
    exact List.eq_of_mem_replicate h

/-- Behind a segment that names something a normal form does not lead up, and what stands before the
segment is a normal form itself. -/
theorem IsSettled.split {absolute : Bool} {upper lower : List Text} {segment : Text}
    (h : IsSettled absolute (upper ++ segment :: lower)) (hsegment : segment ≠ dotDot) :
    dotDot ∉ upper ∧ walk absolute lower.reverse = lower := by
  obtain ⟨up, down, hleads, hfold⟩ := exists_leads (upper ++ segment :: lower).reverse
  have hall : upper ++ segment :: lower = down ++ climb absolute up [] :=
    h.walk_reverse.symm.trans (hfold absolute [])
  have hinner : ∃ inner, down = upper ++ segment :: inner ∧
      lower = inner ++ climb absolute up [] := by
    rcases List.append_eq_append_iff.mp hall with ⟨rest, hdown, hrest⟩ | ⟨rest, hupper, hrest⟩
    · rcases List.cons_eq_append_iff.mp hrest with ⟨rfl, hclimb⟩ | ⟨inner, rfl, hlower⟩
      · have hmem : segment ∈ climb absolute up [] := hclimb ▸ List.mem_cons_self
        exact absurd (eq_dotDot_of_mem_climb_nil hmem) hsegment
      · exact ⟨inner, hdown, hlower⟩
    · have hmem : segment ∈ climb absolute up [] :=
        hrest ▸ List.mem_append_right _ List.mem_cons_self
      exact absurd (eq_dotDot_of_mem_climb_nil hmem) hsegment
  obtain ⟨inner, rfl, rfl⟩ := hinner
  have hdown := hleads.1
  rw [List.mem_append, List.mem_cons, not_or, not_or] at hdown
  have hproper : ∀ s ∈ inner, IsProper s := fun s hs ↦ h.proper s (by simp [hs])
  refine ⟨hdown.1, ?_⟩
  rw [List.reverse_append, walk, List.foldl_append, ← walk, walk_reverse_climb_nil,
    foldl_push_reverse hproper hdown.2.2]

/-! ## Names before they are normalized -/

/-- A name as it is read from a folder, before it is normalized. -/
def spelled (folder name : Text) : Text :=
  if isAbsolute name then name else folder ++ slash ++ name

theorem join_eq_normalize (folder name : Text) :
    join folder name = normalize (spelled folder name) :=
  (apply_ite normalize _ _ _).symm

theorem spelled_ne_nil (folder name : Text) : spelled folder name ≠ [] := by
  unfold spelled
  split
  · rename_i habsolute
    rintro rfl
    exact absurd habsolute (by decide)
  · simp [slash]

theorem normalize_slash_append {s : Text} (h : isAbsolute s) :
    normalize (slash ++ slash ++ s) = normalize s := by
  obtain ⟨rest, rfl⟩ := exists_eq_slash_cons h
  calc
    normalize (slash ++ slash ++ '/' :: rest) = normalize (slash ++ slash ++ rest) :=
      normalize_slash_append_slash ('/' :: rest)
    _ = normalize ('/' :: rest) := normalize_slash_append_slash rest

theorem join_append {folder front : Text} (rest : Text)
    (h : front = [] → folder = slash ∨ ¬ isAbsolute rest) :
    join folder (front ++ rest) = normalize (spelled folder front ++ rest) := by
  cases front with
  | cons c front =>
    have hhead : isAbsolute (c :: front ++ rest) = isAbsolute (c :: front) := rfl
    rw [join_eq_normalize, spelled, spelled, hhead]
    split
    · rfl
    · rw [← List.append_assoc]
  | nil =>
    have hspelled : spelled folder [] = folder ++ slash := List.append_nil _
    rw [hspelled, List.nil_append, join]
    split
    · rename_i habsolute
      obtain rfl := (h rfl).resolve_right (not_not.mpr habsolute)
      exact (normalize_slash_append habsolute).symm
    · rfl

/-! ## Gaps -/

/-- The folders that the last segment of a name stands in, the innermost one first. -/
def folders (s : Text) : List Text := walk (rooted s) (parts s).dropLast

def lastSegment (s : Text) : Text := (parts s).getLast (parts_ne_nil s)

def firstSegment (s : Text) : Text := (parts s).head (parts_ne_nil s)

theorem parts_eq_concat (s : Text) : parts s = (parts s).dropLast ++ [lastSegment s] :=
  (List.dropLast_concat_getLast (parts_ne_nil s)).symm

theorem parts_eq_cons (s : Text) : parts s = firstSegment s :: (parts s).tail :=
  (List.cons_head_tail (parts_ne_nil s)).symm

theorem lastSegment_mem (s : Text) : lastSegment s ∈ parts s := List.getLast_mem _

theorem firstSegment_mem (s : Text) : firstSegment s ∈ parts s := List.head_mem _

theorem parts_lastSegment (s : Text) : parts (lastSegment s) = [lastSegment s] :=
  parts_of_mem_parts (lastSegment_mem s)

theorem parts_firstSegment (s : Text) : parts (firstSegment s) = [firstSegment s] :=
  parts_of_mem_parts (firstSegment_mem s)

theorem lastSegment_spelled (folder name : Text) :
    lastSegment (spelled folder name) = lastSegment name := by
  unfold spelled
  split
  · rfl
  · have hcons : folder ++ slash ++ name = folder ++ '/' :: name := List.append_assoc _ _ _
    have hparts := parts_append_slash folder name
    rw [parts_eq_concat name, ← List.append_assoc] at hparts
    simp only [lastSegment, hcons, hparts, List.getLast_concat]

variable {s : Text}

theorem rooted_gap (hne : s ≠ []) (w t : Text) : rooted (s ++ w ++ t) = rooted s := by
  rw [List.append_assoc]
  exact rooted_append hne _

/-- A text in a gap is walked along from the folders of the beginning, and the ending after it. -/
theorem stack_gap {t : Text} {up : Nat} {down : List Text} (hne : s ≠ [])
    (hleads : Leads (parts t).tail up down) (w : Text) :
    stack (s ++ w ++ t) = down ++ climb (rooted s) up
      ((parts (lastSegment s ++ w ++ firstSegment t)).foldl (push (rooted s)) (folders s)) := by
  rw [stack_append_append (parts_eq_concat s) (parts_eq_cons t), rooted_gap hne,
    hleads.foldl_push, folders]

theorem leads_zero {segments : List Text} (h : dotDot ∉ walk false segments) :
    Leads segments 0 (walk false segments) := ⟨h, (List.append_nil _).symm⟩

theorem exists_leads_succ {segments : List Text} (h : dotDot ∈ walk false segments) :
    ∃ up down, Leads segments (up + 1) down := by
  obtain ⟨up, down, hleads, -⟩ := exists_leads segments
  cases up with
  | zero =>
    rw [hleads.2, List.replicate_zero, List.append_nil] at h
    exact absurd h hleads.1
  | succ up => exact ⟨up, down, hleads⟩

end FencedCode.Path
