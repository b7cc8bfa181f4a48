import FencedCode.Proofs.Text.Blank
import FencedCode.Proofs.Text.Cut
import FencedCode.Proofs.Text.Rows
import FencedCode.Source.Directive

/-!
# The grammar of directive lines

A directive line is the marker, a name and a tail. The grammar says which names and tails there
are without saying how they are found, and reading a line accepts exactly what the grammar
describes. A text without a directive line stays one when line feeds are added behind it.
-/

namespace FencedCode

namespace Directive

/-- The line is a directive line with the given tail, and it says `d`. -/
structure Reads (d : Directive) (line tail : Text) : Prop where
  line_eq : line = marker ++ (d.name ++ tail)
  name_ne_nil : d.name ≠ []
  name_chars : ∀ c ∈ d.name, isNameChar c
  /-- The name cannot be longer. -/
  name_maximal : ∀ c ∈ tail.head?, ¬ isNameChar c
  tail_start : Text.allBlank tail ∨ tail.head? = some ' '
  hidden_iff : d.hidden ↔ hidingFlag ∈ Text.words tail

theorem parse?_of_reads {d : Directive} {line tail : Text} (h : d.Reads line tail) :
    parse? line = some d := by
  obtain ⟨name, hidden⟩ := d
  have hstrip : Text.stripStart? marker line = some (name ++ tail) :=
    Text.stripStart?_eq_some_iff.mpr h.line_eq
  have htake := Text.takeWhile_append_of_head? h.name_chars h.name_maximal
  have hdrop := Text.dropWhile_append_of_head? h.name_chars h.name_maximal
  have hname : ¬ (name.isEmpty = true) := fun hempty ↦ h.name_ne_nil (List.isEmpty_iff.mp hempty)
  have hhidden := h.hidden_iff
  simp only at htake hdrop hhidden
  simp only [parse?, hstrip, htake, hdrop, Option.bind_eq_bind, Option.bind_some, if_neg hname]
  by_cases hblank : Text.allBlank tail
  · rw [Text.words_of_allBlank hblank] at hhidden
    simpa [hblank] using hhidden
  · obtain ⟨flags, rfl⟩ := List.head?_eq_some_iff.mp (h.tail_start.resolve_left hblank)
    rw [Text.words_cons_of_isBlank (by decide)] at hhidden
    have hflags : Text.stripStart? [' '] (' ' :: flags) = some flags := rfl
    simp only [if_neg hblank, hflags, Option.bind_some, Option.some_inj, mk.injEq, true_and]
    rw [Bool.eq_iff_iff, hhidden, List.contains_iff_mem]

theorem reads_of_parse? {d : Directive} {line : Text} (h : parse? line = some d) :
    ∃ tail, d.Reads line tail := by
  simp only [parse?, Option.bind_eq_bind, Option.bind_eq_some_iff] at h
  obtain ⟨rest, hstrip, h⟩ := h
  rw [Text.stripStart?_eq_some_iff] at hstrip
  have hrest : rest = rest.takeWhile isNameChar ++ rest.dropWhile isNameChar :=
    List.takeWhile_append_dropWhile.symm
  have hchars : ∀ c ∈ rest.takeWhile isNameChar, isNameChar c :=
    List.all_eq_true.mp List.all_takeWhile
  have hmaximal : ∀ c ∈ (rest.dropWhile isNameChar).head?, ¬ isNameChar c := by
    intro c hc
    have hhead := List.head?_dropWhile_not isNameChar rest
    rw [Option.mem_def.mp hc] at hhead
    simpa using hhead
  split at h
  · simp at h
  · rename_i hname
    have hne : rest.takeWhile isNameChar ≠ [] := fun heq ↦ hname (List.isEmpty_iff.mpr heq)
    split at h
    · rename_i hblank
      obtain rfl := Option.some.inj h
      refine ⟨_, ⟨hstrip.trans (congrArg (marker ++ ·) hrest), hne, hchars, hmaximal,
        .inl hblank, ?_⟩⟩
      simp [Text.words_of_allBlank hblank]
    · obtain ⟨flags, hflags, h⟩ := Option.bind_eq_some_iff.mp h
      rw [Text.stripStart?_eq_some_iff] at hflags
      obtain rfl := Option.some.inj h
      refine ⟨_, ⟨hstrip.trans (congrArg (marker ++ ·) hrest), hne, hchars, hmaximal,
        .inr (by rw [hflags]; rfl), ?_⟩⟩
      rw [hflags, List.singleton_append, Text.words_cons_of_isBlank (by decide),
        List.contains_iff_mem]

/-- Reading accepts exactly the lines of the grammar. -/
theorem parse?_eq_some_iff {d : Directive} {line : Text} :
    parse? line = some d ↔ ∃ tail, d.Reads line tail :=
  ⟨reads_of_parse?, fun ⟨_, h⟩ ↦ parse?_of_reads h⟩

/-- The row without its line break is a directive line that says `d`. -/
def OnRow (d : Directive) (row : Text) : Prop := ∃ tail, d.Reads (Text.rowBody row) tail

theorem onRow_iff {d : Directive} {row : Text} :
    d.OnRow row ↔ parse? (Text.rowBody row) = some d :=
  parse?_eq_some_iff.symm

theorem forall_not_onRow_iff {row : Text} :
    (∀ d : Directive, ¬ d.OnRow row) ↔ parse? (Text.rowBody row) = none := by
  simp only [onRow_iff, Option.eq_none_iff_forall_ne_some, ne_eq]

theorem not_isNameChar_of_isBlank {c : Char} (h : Text.isBlank c) : ¬ isNameChar c := by
  intro hname
  have hrange : (45 ≤ c.toNat ∧ c.toNat ≤ 57) ∨ (65 ≤ c.toNat ∧ c.toNat ≤ 122) := by
    simp only [isNameChar, Bool.or_eq_true, decide_eq_true_eq] at hname
    rcases hname with (((hletter | rfl) | rfl) | rfl) | rfl
    · have hcode : (decide (65 ≤ c.val ∧ c.val ≤ 90) ||
          (decide (97 ≤ c.val) && decide (c.val ≤ 122)) ||
          (decide (48 ≤ c.val) && decide (c.val ≤ 57))) = true := hletter
      simp only [Bool.or_eq_true, Bool.and_eq_true, decide_eq_true_eq,
        UInt32.le_iff_toNat_le] at hcode
      have hnat : c.val.toNat = c.toNat := rfl
      rw [hnat] at hcode
      simp only [UInt32.reduceToNat] at hcode
      omega
    all_goals decide
  simp only [Text.isBlank, Bool.or_eq_true, Bool.and_eq_true, decide_eq_true_eq] at h
  omega

/-- White space behind a directive line belongs to its tail. -/
theorem Reads.append_blank {d : Directive} {line tail b : Text} (h : d.Reads line tail)
    (hb : Text.allBlank b) : d.Reads (line ++ b) (tail ++ b) where
  line_eq := by
    rw [h.line_eq]
    simp
  name_ne_nil := h.name_ne_nil
  name_chars := h.name_chars
  name_maximal := by
    cases tail with
    | nil =>
      intro c hc
      exact not_isNameChar_of_isBlank (Text.allBlank_iff.mp hb c (List.mem_of_head? hc))
    | cons c tail => exact h.name_maximal
  tail_start := by
    rcases h.tail_start with hblank | hspace
    · exact .inl (Text.allBlank_append hblank hb)
    · right
      rw [List.head?_append, hspace, Option.some_or]
  hidden_iff := by
    rw [Text.words_append_of_allBlank hb]
    exact h.hidden_iff

end Directive

/-- No row of the text is a directive line. -/
def DirectiveFree (s : Text) : Prop := ∀ row ∈ Text.rows s, ∀ d : Directive, ¬ d.OnRow row

@[simp] theorem directiveFree_nil : DirectiveFree [] := by simp [DirectiveFree, Text.rows]

instance (s : Text) : Decidable (DirectiveFree s) :=
  decidable_of_iff (∀ row ∈ Text.rows s, Directive.parse? (Text.rowBody row) = none) <| by
    simp only [DirectiveFree, Directive.forall_not_onRow_iff]

end FencedCode
