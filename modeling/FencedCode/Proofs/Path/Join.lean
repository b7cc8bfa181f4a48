import FencedCode.Proofs.Path.Lexical

/-!
# Joining names

Names may be normalized at any moment: a folder can be in normal form before a name is read from it,
and names that are read one after another from a folder are one name with a separator between them.
A canonical name is the last of its segments, read from its folder.
-/

namespace FencedCode.Path

variable {folder first second p : Text}

theorem normalize_ne_nil (s : Text) : normalize s ≠ [] := by
  intro hnil
  have hnormal := normalize_normalize s
  rw [hnil] at hnormal
  exact absurd hnormal (by decide)

theorem join_normalize (h : folder ≠ []) (name : Text) :
    join (normalize folder) name = join folder name :=
  join_eq_join (normalize_normalize folder) (normalize_ne_nil folder) h name

theorem join_of_relative {name : Text} (h : ¬ isAbsolute name) (folder : Text) :
    join folder name = normalize (folder ++ slash ++ name) := if_neg h

/-- Names that are read one after another are read as one. -/
theorem join_join (folder : Text) (hne : first ≠ []) (hfirst : ¬ isAbsolute first)
    (hsecond : ¬ isAbsolute second) :
    join (join folder first) second = join folder (first ++ slash ++ second) := by
  have hfolder : folder ++ slash ++ first ≠ [] := by simp [slash]
  have hboth : ¬ isAbsolute (first ++ slash ++ second) := by
    rwa [List.append_assoc, isAbsolute_append hne]
  calc
    join (join folder first) second = join (normalize (folder ++ slash ++ first)) second := by
      rw [join_of_relative hfirst]
    _ = join (folder ++ slash ++ first) second := join_normalize hfolder second
    _ = normalize (folder ++ slash ++ first ++ slash ++ second) := join_of_relative hsecond _
    _ = normalize (folder ++ slash ++ (first ++ slash ++ second)) := by
      simp only [List.append_assoc]
    _ = join folder (first ++ slash ++ second) := (join_of_relative hboth folder).symm

/-- A canonical name at the root is its last part, read from its folder. -/
theorem IsCanonical.join_parent_lastPart (h : IsCanonical p) (habsolute : isAbsolute p) :
    join (parent p) (lastPart p) = p := by
  obtain ⟨folder, last, rfl, hlast⟩ := exists_eq_append_slash (slash_mem_of_isAbsolute habsolute)
  have hrelative : ¬ isAbsolute last := mt slash_mem_of_isAbsolute hlast
  rw [lastPart_append_slash hlast, parent_append_slash hlast, join_of_relative hrelative]
  by_cases hroot : folder = []
  · subst hroot
    rw [if_pos rfl, normalize_slash_append_slash]
    exact h.normalize_eq
  · rw [if_neg hroot, List.append_assoc]
    exact h.normalize_eq

/-- A folder may be normalized before a name is read from it, names that are read one after another
are read as one, and a canonical name at the root is its last part, read from its folder. -/
theorem join_normalize_and_join_and_parent (folder first second p : Text) :
    (folder ≠ [] → join (normalize folder) second = join folder second) ∧
      (first ≠ [] → ¬ isAbsolute first → ¬ isAbsolute second →
        join (join folder first) second = join folder (first ++ slash ++ second)) ∧
      (IsCanonical p → isAbsolute p → join (parent p) (lastPart p) = p) :=
  ⟨fun h ↦ join_normalize h second, join_join folder,
    fun h habsolute ↦ h.join_parent_lastPart habsolute⟩

theorem join_normalize_and_join_and_parent_sample :
    join (normalize "/docs//block".toList) "..\\x".toList =
        join "/docs//block".toList "..\\x".toList ∧
      join (join "/docs//block".toList "../..".toList) "..\\x".toList =
        join "/docs//block".toList "../../..\\x".toList ∧
      IsCanonical "/docs/b.ts".toList ∧
      join (parent "/docs/b.ts".toList) (lastPart "/docs/b.ts".toList) = "/docs/b.ts".toList := by
  have hcanonical : IsCanonical "/docs/b.ts".toList := isCanonical_of_normal (by decide)
  obtain ⟨hnormalize, hjoin, hparent⟩ := join_normalize_and_join_and_parent "/docs//block".toList
    "../..".toList "..\\x".toList "/docs/b.ts".toList
  exact ⟨hnormalize (by decide), hjoin (by decide) (by decide) (by decide), hcanonical,
    hparent hcanonical (by decide)⟩

end FencedCode.Path
