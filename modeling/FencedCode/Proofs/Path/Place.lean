import FencedCode.Path.Native
import FencedCode.Proofs.Path.Canonical

/-!
# Places that paths lead to

A path of the operating system leads from the current folder to a place, or from the root when it is
absolute. A path that is read from a folder leads where the path leads from the place of the folder.
Segments are taken by their letters, so `..` goes back to the folder that the path came from.
-/

namespace FencedCode

namespace Path

/-- Where no segment of a folder leads up, a climb only takes segments off. -/
theorem climb_true_of_notMem {walked : List Text} (h : dotDot ∉ walked) (up : Nat) :
    climb true up walked = walked.drop up := by
  rcases Nat.le_total up walked.length with hup | hup
  · have hclimb := climb_append h true hup []
    rwa [List.append_nil] at hclimb
  · have hclimb := climb_append_of_length_le h true hup []
    rwa [List.append_nil, climb_true_nil, ← List.drop_eq_nil_of_le hup] at hclimb

end Path

namespace NativePath

open FencedCode.Path (dotDot Leads)

/-- The place that a path leads to from the place `current`. Places are the names of their folders,
the innermost one first. -/
def place (current : List Text) (p : Text) : List Text :=
  (p.splitOn '/').foldl (Path.push true) (if isAbsolute p then [] else current)

theorem join_nil (p : Text) : join [] p = p := by
  unfold join
  split <;> rfl

theorem mem_join {p : Text} {c : Char} (h : c ∈ p) (folder : Text) : c ∈ join folder p := by
  unfold join
  split
  · exact h
  · split
    · exact List.mem_append_right folder h
    · exact List.mem_append_right folder (List.mem_cons_of_mem _ h)

theorem place_of_isAbsolute {p : Text} (h : isAbsolute p) (current other : List Text) :
    place current p = place other p := by
  rw [place, if_pos h, place, if_pos h]

theorem foldl_push_splitOn_append_slash (s t : Text) (walked : List Text) :
    ((s ++ '/' :: t).splitOn '/').foldl (Path.push true) walked =
      (t.splitOn '/').foldl (Path.push true) ((s.splitOn '/').foldl (Path.push true) walked) := by
  rw [List.splitOn_append_cons_self, List.foldl_append]

theorem isAbsolute_append {folder : Text} (h : folder ≠ []) (p : Text) :
    isAbsolute (folder ++ p) = isAbsolute folder := Path.isAbsolute_append h p

/-- A path that is not absolute leads on from the place of the folder that it is read from. -/
theorem place_append_slash {folder : Text} (h : folder ≠ []) (current : List Text) (p : Text)
    (hp : ¬ isAbsolute p) :
    place current (folder ++ '/' :: p) = place (place current folder) p := by
  rw [place, isAbsolute_append h, foldl_push_splitOn_append_slash, place, if_neg hp, place]

theorem place_join (current : List Text) (folder p : Text) :
    place current (join folder p) = place (place current folder) p := by
  unfold join
  split
  · rename_i habsolute
    exact place_of_isAbsolute habsolute _ _
  · rename_i hrelative
    split
    · rename_i hend
      rcases List.eq_nil_or_concat folder with rfl | ⟨front, last, rfl⟩
      · rfl
      · obtain rfl : last = '/' := by simpa using hend
        have hplace : place current (front.concat '/') =
            (front.splitOn '/').foldl (Path.push true)
              (if isAbsolute (front.concat '/') then [] else current) := by
          rw [place, List.concat_eq_append, foldl_push_splitOn_append_slash]
          rfl
        rw [hplace, place, isAbsolute_append (by simp), place, if_neg hrelative,
          List.concat_eq_append, List.append_assoc, List.singleton_append,
          foldl_push_splitOn_append_slash]
    · rename_i hend
      apply place_append_slash _ _ _ hrelative
      rintro rfl
      exact hend (by simp)

/-- A relative path leaves as many folders as it leads up, and goes down from there. -/
theorem place_of_leads {p : Text} (hp : ¬ isAbsolute p) {up : Nat} {down : List Text}
    (hleads : Leads (p.splitOn '/') up down) {current : List Text} (hcurrent : dotDot ∉ current) :
    place current p = down ++ current.drop up := by
  rw [place, if_neg hp, hleads.foldl_push, Path.climb_true_of_notMem hcurrent]

theorem dotDot_notMem_place {current : List Text} (hcurrent : dotDot ∉ current) (p : Text) :
    dotDot ∉ place current p := by
  obtain ⟨up, down, hleads, -⟩ := Path.exists_leads (p.splitOn '/')
  have hstart : dotDot ∉ if isAbsolute p then [] else current := by
    split
    · exact List.not_mem_nil
    · exact hcurrent
  rw [place, hleads.foldl_push, Path.climb_true_of_notMem hstart, List.mem_append, not_or]
  exact ⟨hleads.1, fun h ↦ hstart (List.mem_of_mem_drop h)⟩

/-- A relative path leads to one place from two folders exactly when they are the same so many
folders up as the path leads. -/
theorem place_eq_place_iff {p : Text} (hp : ¬ isAbsolute p) {current other : List Text}
    (hcurrent : dotDot ∉ current) (hother : dotDot ∉ other) :
    place other p = place current p ↔
      ∃ up down, Leads (p.splitOn '/') up down ∧ other.drop up = current.drop up := by
  constructor
  · intro h
    obtain ⟨up, down, hleads, -⟩ := Path.exists_leads (p.splitOn '/')
    rw [place_of_leads hp hleads hother, place_of_leads hp hleads hcurrent,
      List.append_cancel_left_eq] at h
    exact ⟨up, down, hleads, h⟩
  · rintro ⟨up, down, hleads, hdrop⟩
    rw [place_of_leads hp hleads hother, place_of_leads hp hleads hcurrent, hdrop]

/-- A path that is read from a folder leads where it leads by itself exactly when it is absolute, or
goes up out of all that the folder adds to the current place. -/
theorem place_join_eq_iff {current : List Text} (hcurrent : dotDot ∉ current) (folder p : Text) :
    place current (join folder p) = place current p ↔ isAbsolute p ∨ ∃ up down,
      Leads (p.splitOn '/') up down ∧ (place current folder).drop up = current.drop up := by
  rw [place_join]
  by_cases hp : isAbsolute p
  · exact iff_of_true (place_of_isAbsolute hp _ _) (.inl hp)
  · rw [place_eq_place_iff hp hcurrent (dotDot_notMem_place hcurrent folder)]
    exact (or_iff_right hp).symm

/-! ## Absolute paths -/

theorem isAbsolute_join {folder : Text} (h : isAbsolute folder) (p : Text) :
    isAbsolute (join folder p) := by
  have hne : folder ≠ [] := by
    rintro rfl
    exact absurd h (by decide)
  unfold join
  split
  · assumption
  · split
    · rwa [isAbsolute_append hne]
    · rwa [isAbsolute_append hne]

theorem start_of_isAbsolute {p : Text} (h : isAbsolute p) : start p = ['/'] := by
  obtain ⟨rest, rfl⟩ := Path.exists_eq_slash_cons h
  rfl

theorem isAbsolute_of_mem_foldersAbove {components : List Text} {folder : Text}
    (h : folder ∈ foldersAbove ['/'] components) : isAbsolute folder := by
  induction components with
  | nil => exact absurd h List.not_mem_nil
  | cons component rest ih =>
    rw [foldersAbove] at h
    split at h
    · exact ih h
    · rcases List.mem_cons.mp h with rfl | h
      · rfl
      · exact ih h

theorem isAbsolute_of_mem_parents {p folder : Text} (h : isAbsolute p)
    (hfolder : folder ∈ parents p) : isAbsolute folder := by
  rw [parents, start_of_isAbsolute h] at hfolder
  exact isAbsolute_of_mem_foldersAbove hfolder

theorem isAbsolute_of_mem_ancestors {p folder : Text} (h : isAbsolute p)
    (hfolder : folder ∈ ancestors p) : isAbsolute folder := by
  rcases List.mem_cons.mp hfolder with rfl | hfolder
  · exact h
  · exact isAbsolute_of_mem_parents h hfolder

theorem isVoid_of_foldersAbove_eq_nil {start : Text} {components : List Text}
    (h : foldersAbove start components = []) : ∀ component ∈ components, isVoid component := by
  induction components with
  | nil => exact fun _ hmem ↦ absurd hmem List.not_mem_nil
  | cons component rest ih =>
    rw [foldersAbove] at h
    split at h
    · rename_i hvoid
      exact List.forall_mem_cons.mpr ⟨hvoid, ih h⟩
    · exact absurd h (List.cons_ne_nil _ _)

/-- An absolute path that names something has a folder, and the folder is absolute. -/
theorem isAbsolute_folder {p : Text} (h : isAbsolute p) {c : Char} (hmem : c ∈ p) (hslash : c ≠ '/')
    (hdot : c ≠ '.') : isAbsolute (folder p) := by
  cases hparents : parents p with
  | cons first rest =>
    have hfirst : first ∈ parents p := by
      rw [hparents]
      exact List.mem_cons_self
    have hfolder : folder p = first := by
      rw [folder, parent?, hparents]
      rfl
    rw [hfolder]
    exact isAbsolute_of_mem_parents h hfirst
  | nil =>
    have hrest : c ∈ p.drop 1 := by
      obtain ⟨rest, rfl⟩ := Path.exists_eq_slash_cons h
      exact List.mem_of_ne_of_mem hslash hmem
    obtain ⟨component, hcomponent, hin⟩ := (Path.mem_iff_exists_mem_splitOn hslash).mp hrest
    rw [parents, start_of_isAbsolute h] at hparents
    have hvoid := isVoid_of_foldersAbove_eq_nil hparents component (List.mem_reverse.mpr hcomponent)
    have hcases : component = [] ∨ component = ['.'] := by simpa [isVoid] using hvoid
    rcases hcases with rfl | rfl
    · exact absurd hin List.not_mem_nil
    · exact absurd (List.mem_singleton.mp hin) hdot

end NativePath

end FencedCode
