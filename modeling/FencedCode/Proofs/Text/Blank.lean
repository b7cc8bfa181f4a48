import FencedCode.Text.Blank

/-!
# White space around a text

Trimming takes white space away at both ends and nothing else, so it does not see white space that
is added there, and it keeps every other character. The words of a text do not see white space at
the front either.
-/

namespace FencedCode.Text

theorem allBlank_iff {s : Text} : allBlank s ↔ ∀ c ∈ s, isBlank c := List.all_eq_true

theorem dropWhile_isBlank_of_allBlank {s : Text} (h : allBlank s) : s.dropWhile isBlank = [] := by
  have hall : (s ++ []).dropWhile isBlank = [] :=
    List.dropWhile_append_of_pos (allBlank_iff.mp h)
  rwa [List.append_nil] at hall

theorem trimEnd_append_of_allBlank {b : Text} (h : allBlank b) (s : Text) :
    trimEnd (s ++ b) = trimEnd s := by
  have hreverse : ∀ c ∈ b.reverse, isBlank c := fun c hc ↦
    allBlank_iff.mp h c (List.mem_reverse.mp hc)
  rw [trimEnd, List.reverse_append, List.dropWhile_append_of_pos hreverse, trimEnd]

theorem trim_append_of_allBlank {b : Text} (h : allBlank b) (s : Text) :
    trim (s ++ b) = trim s := by
  unfold trim trimStart
  rw [List.dropWhile_append]
  split
  · rename_i hempty
    rw [dropWhile_isBlank_of_allBlank h, List.isEmpty_iff.mp hempty]
  · exact trimEnd_append_of_allBlank h _

theorem trim_blank_append {b : Text} (h : allBlank b) (s : Text) : trim (b ++ s) = trim s := by
  unfold trim trimStart
  rw [List.dropWhile_append_of_pos (allBlank_iff.mp h)]

theorem exists_trimStart (s : Text) : ∃ b, allBlank b ∧ s = b ++ trimStart s :=
  ⟨s.takeWhile isBlank, List.all_takeWhile, List.takeWhile_append_dropWhile.symm⟩

theorem exists_trimEnd (s : Text) : ∃ b, allBlank b ∧ s = trimEnd s ++ b := by
  obtain ⟨b, hb, heq⟩ := exists_trimStart s.reverse
  refine ⟨b.reverse, by simpa [allBlank] using hb, ?_⟩
  have hreverse := congrArg List.reverse heq
  rwa [List.reverse_reverse, List.reverse_append] at hreverse

/-- What trimming takes away is white space at the two ends. -/
theorem exists_trim (s : Text) : ∃ b e, allBlank b ∧ allBlank e ∧ s = b ++ (trim s ++ e) := by
  obtain ⟨b, hb, hstart⟩ := exists_trimStart s
  obtain ⟨e, he, hend⟩ := exists_trimEnd (trimStart s)
  refine ⟨b, e, hb, he, ?_⟩
  calc
    s = b ++ trimStart s := hstart
    _ = b ++ (trim s ++ e) := by rw [trim, ← hend]

@[simp] theorem trim_trim (s : Text) : trim (trim s) = trim s := by
  obtain ⟨b, e, hb, he, heq⟩ := exists_trim s
  calc
    trim (trim s) = trim (b ++ (trim s ++ e)) := by
      rw [trim_blank_append hb, trim_append_of_allBlank he]
    _ = trim s := by rw [← heq]

/-- The number of characters that are not white space. -/
def ink (s : Text) : Nat := s.countP fun c ↦ !isBlank c

@[simp] theorem ink_append (s t : Text) : ink (s ++ t) = ink s + ink t := List.countP_append

theorem ink_of_allBlank {s : Text} (h : allBlank s) : ink s = 0 := by
  rw [ink, List.countP_eq_zero]
  intro c hc
  simp [allBlank_iff.mp h c hc]

theorem ink_pos {s : Text} {c : Char} (hc : c ∈ s) (h : isBlank c = false) : 0 < ink s := by
  rw [ink, List.countP_pos_iff]
  exact ⟨c, hc, by simp [h]⟩

/-- Trimming keeps every character that is not white space. -/
@[simp] theorem ink_trim (s : Text) : ink (trim s) = ink s := by
  obtain ⟨b, e, hb, he, heq⟩ := exists_trim s
  calc
    ink (trim s) = ink (b ++ (trim s ++ e)) := by
      rw [ink_append, ink_append, ink_of_allBlank hb, ink_of_allBlank he, Nat.zero_add,
        Nat.add_zero]
    _ = ink s := by rw [← heq]

theorem words_cons_of_isBlank {c : Char} (h : isBlank c) (s : Text) : words (c :: s) = words s := by
  simp [words, List.splitOnP_cons_eq_if_modifyHead, h]

theorem words_of_allBlank {s : Text} (h : allBlank s) : words s = [] := by
  induction s with
  | nil => rfl
  | cons c s ih =>
    have hall := allBlank_iff.mp h
    rw [words_cons_of_isBlank (hall c List.mem_cons_self)]
    exact ih (allBlank_iff.mpr fun d hd ↦ hall d (List.mem_cons_of_mem c hd))

theorem words_append_of_allBlank {b : Text} (h : allBlank b) (s : Text) :
    words (s ++ b) = words s := by
  cases b with
  | nil => rw [List.append_nil]
  | cons c b =>
    have hall := allBlank_iff.mp h
    have hrest : allBlank b := allBlank_iff.mpr fun d hd ↦ hall d (List.mem_cons_of_mem c hd)
    have hnone : (b.splitOnP isBlank).filter (fun w ↦ !w.isEmpty) = [] := words_of_allBlank hrest
    rw [words, List.splitOnP_append_cons _ _ (hall c List.mem_cons_self), List.filter_append,
      hnone, List.append_nil, words]

theorem allBlank_append {s t : Text} (hs : allBlank s) (ht : allBlank t) : allBlank (s ++ t) := by
  rw [allBlank, List.all_append, Bool.and_eq_true]
  exact ⟨hs, ht⟩

theorem dropFinal_append_of_ne_nil (c : Char) (s : Text) {e : Text} (he : e ≠ []) :
    dropFinal c (s ++ e) = s ++ dropFinal c e := by
  have hlast : (s ++ e).getLast? = e.getLast? := by
    rw [List.getLast?_append, List.getLast?_eq_some_getLast he, Option.some_or]
  unfold dropFinal
  rw [hlast, List.dropLast_append_of_ne_nil he]
  split <;> rfl

theorem exists_dropFinal {c : Char} (hc : isBlank c) (s : Text) :
    ∃ b, allBlank b ∧ s = dropFinal c s ++ b := by
  unfold dropFinal
  split
  · rename_i hlast
    obtain ⟨t, rfl⟩ := List.getLast?_eq_some_iff.mp hlast
    exact ⟨[c], by simp [allBlank, hc], by rw [List.dropLast_concat]⟩
  · exact ⟨[], rfl, by rw [List.append_nil]⟩

/-- A final character that is white space can be counted to the white space behind it. -/
theorem exists_dropFinal_append {c : Char} (hc : isBlank c) {e : Text} (he : allBlank e)
    (s : Text) : ∃ b, allBlank b ∧ dropFinal c (s ++ e) = dropFinal c s ++ b := by
  by_cases hnil : e = []
  · exact ⟨[], rfl, by rw [hnil, List.append_nil, List.append_nil]⟩
  · obtain ⟨b, hb, hs⟩ := exists_dropFinal hc s
    obtain ⟨d, -, hd⟩ := exists_dropFinal hc e
    refine ⟨b ++ dropFinal c e, allBlank_append hb ?_, ?_⟩
    · rw [hd, allBlank, List.all_append, Bool.and_eq_true] at he
      exact he.1
    · rw [dropFinal_append_of_ne_nil c s hnil, ← List.append_assoc, ← hs]

end FencedCode.Text
