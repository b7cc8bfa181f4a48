import FencedCode.Text.Search

/-!
# Cutting a text

A text that holds a character is cut at the first place where it stands. Nothing is lost by the cut,
and the piece in front does not hold the character. A list whose front has a property that the item
behind the front does not have is cut by the property alone, so it has one such front.
-/

namespace FencedCode.Text

section Front

variable {α : Type} {p : α → Bool} {front front' back back' : List α}

theorem takeWhile_append_of_head? (hfront : ∀ x ∈ front, p x) (hback : ∀ x ∈ back.head?, ¬ p x) :
    (front ++ back).takeWhile p = front := by
  rw [List.takeWhile_append_of_pos hfront]
  cases back with
  | nil => simp
  | cons x back => rw [List.takeWhile_cons_of_neg (hback x rfl), List.append_nil]

theorem dropWhile_append_of_head? (hfront : ∀ x ∈ front, p x) (hback : ∀ x ∈ back.head?, ¬ p x) :
    (front ++ back).dropWhile p = back := by
  rw [List.dropWhile_append_of_pos hfront]
  cases back with
  | nil => rfl
  | cons x back => exact List.dropWhile_cons_of_neg (hback x rfl)

theorem append_inj_of_head? (hfront : ∀ x ∈ front, p x) (hback : ∀ x ∈ back.head?, ¬ p x)
    (hfront' : ∀ x ∈ front', p x) (hback' : ∀ x ∈ back'.head?, ¬ p x)
    (h : front ++ back = front' ++ back') : front = front' ∧ back = back' := by
  have htake := takeWhile_append_of_head? hfront hback
  have hdrop := dropWhile_append_of_head? hfront hback
  rw [h, takeWhile_append_of_head? hfront' hback'] at htake
  rw [h, dropWhile_append_of_head? hfront' hback'] at hdrop
  exact ⟨htake.symm, hdrop.symm⟩

end Front

theorem splitFirst_cons (c d : Char) (s : Text) :
    splitFirst c (d :: s) =
      if d = c then some ([], s) else (splitFirst c s).map fun p ↦ (d :: p.1, p.2) := by
  unfold splitFirst
  by_cases hd : d = c
  · simp [hd]
  · by_cases hs : c ∈ s
    · simp [hd, hs]
    · simp [hd, hs, Ne.symm hd]

theorem splitFirst_eq_none_iff {c : Char} {s : Text} : splitFirst c s = none ↔ c ∉ s := by
  simp [splitFirst]

/-- Where a text is cut, and that there is no other such cut. -/
theorem splitFirst_eq_some_iff {c : Char} {s before after : Text} :
    splitFirst c s = some (before, after) ↔ s = before ++ c :: after ∧ c ∉ before := by
  induction s generalizing before with
  | nil => simp [splitFirst]
  | cons d s ih =>
    rw [splitFirst_cons]
    by_cases hd : d = c
    · subst hd
      rw [if_pos rfl, Option.some_inj, Prod.mk.injEq]
      constructor
      · rintro ⟨rfl, rfl⟩
        exact ⟨rfl, List.not_mem_nil⟩
      · rintro ⟨hs, hbefore⟩
        rcases List.append_eq_cons_iff.mp hs.symm with ⟨rfl, htail⟩ | ⟨front, rfl, -⟩
        · exact ⟨rfl, (List.cons.inj htail).2.symm⟩
        · exact absurd List.mem_cons_self hbefore
    · rw [if_neg hd, Option.map_eq_some_iff]
      constructor
      · rintro ⟨⟨front, rest⟩, hcut, heq⟩
        obtain ⟨rfl, rfl⟩ := Prod.mk.inj heq
        obtain ⟨rfl, hfront⟩ := ih.mp hcut
        exact ⟨rfl, List.not_mem_cons_of_ne_of_not_mem (Ne.symm hd) hfront⟩
      · rintro ⟨hs, hbefore⟩
        rcases List.append_eq_cons_iff.mp hs.symm with ⟨-, htail⟩ | ⟨front, rfl, rfl⟩
        · exact absurd (List.cons.inj htail).1.symm hd
        · exact ⟨(front, after), ih.mpr ⟨rfl, List.not_mem_of_not_mem_cons hbefore⟩, rfl⟩

theorem replaceFirst_of_notMem {c : Char} {s : Text} (h : c ∉ s) (replacement : Text) :
    replaceFirst c replacement s = s := by
  rw [replaceFirst, splitFirst_eq_none_iff.mpr h]

/-- What stands around the first occurrence stays. -/
theorem replaceFirst_append_cons {c : Char} {before : Text} (h : c ∉ before)
    (replacement after : Text) :
    replaceFirst c replacement (before ++ c :: after) = before ++ replacement ++ after := by
  rw [replaceFirst, splitFirst_eq_some_iff.mpr ⟨rfl, h⟩]

end FencedCode.Text
