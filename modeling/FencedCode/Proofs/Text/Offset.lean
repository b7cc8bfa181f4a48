import FencedCode.Diagnostic.Position
import FencedCode.Proofs.Text.Rows
import FencedCode.Text.Utf8

/-!
# Byte offsets and lines

A line feed is one byte of the UTF-8 form, and no other character has a byte like it. The line of
an offset is therefore the number of line feeds among the bytes before it, for every offset. Going
up to an offset one stops behind the character that it lies in, so that at the border between two
characters it also tells the character in its line.
-/

namespace FencedCode

namespace Text

theorem toList_loop (bytes : ByteArray) (i : Nat) (read : List UInt8) :
    ByteArray.toList.loop bytes i read = read.reverse ++ bytes.data.toList.drop i := by
  fun_induction ByteArray.toList.loop bytes i read with
  | case1 i read hi ih =>
    have hlength : i < bytes.data.toList.length := hi
    have hget : bytes.get! i = bytes.data.toList[i] := getElem!_pos bytes.data i hi
    rw [ih, List.reverse_cons, List.append_assoc, List.drop_eq_getElem_cons hlength, hget,
      List.singleton_append]
  | case2 i read hi =>
    have hlength : bytes.data.toList.length ≤ i := Nat.le_of_not_lt hi
    rw [List.drop_eq_nil_of_le hlength, List.append_nil]

/-- The bytes of a text are those of its characters in order. -/
theorem toUtf8_eq_flatMap (s : Text) : toUtf8 s = s.flatMap String.utf8EncodeChar := by
  rw [toUtf8, String.toUTF8_eq_toByteArray, String.toByteArray_ofList, ByteArray.toList,
    toList_loop]
  exact List.toList_data_toByteArray

@[simp] theorem toUtf8_nil : toUtf8 [] = [] := by rw [toUtf8_eq_flatMap, List.flatMap_nil]

@[simp] theorem toUtf8_cons (c : Char) (s : Text) :
    toUtf8 (c :: s) = String.utf8EncodeChar c ++ toUtf8 s := by
  rw [toUtf8_eq_flatMap, toUtf8_eq_flatMap, List.flatMap_cons]

theorem notMem_utf8EncodeChar {c : Char} (h : c ≠ '\n') : 10 ∉ String.utf8EncodeChar c := by
  have hten (n : Nat) : 10 = UInt8.ofNat n ↔ n % 256 = 10 := by
    rw [← UInt8.toNat_inj, UInt8.toNat_ofNat']
    exact eq_comm
  have hcode : c.val.toNat ≠ 10 := fun heq ↦ h (Char.toNat_inj.mp heq)
  unfold String.utf8EncodeChar
  simp only
  split
  · rw [List.mem_singleton, hten]
    omega
  · split
    · simp only [List.mem_cons, List.not_mem_nil, or_false, hten]
      omega
    · split
      · simp only [List.mem_cons, List.not_mem_nil, or_false, hten]
        omega
      · simp only [List.mem_cons, List.not_mem_nil, or_false, hten]
        omega

/-- The number of line feeds among the first bytes of the UTF-8 form. -/
def lineFeedsWithin (s : Text) (offset : Nat) : Nat := ((toUtf8 s).take offset).count 10

@[simp] theorem lineFeedsWithin_zero (s : Text) : lineFeedsWithin s 0 = 0 := by
  rw [lineFeedsWithin, List.take_zero, List.count_nil]

@[simp] theorem lineFeedsWithin_nil (offset : Nat) : lineFeedsWithin [] offset = 0 := by
  rw [lineFeedsWithin, toUtf8_nil, List.take_nil, List.count_nil]

theorem lineFeedsWithin_cons (c : Char) (s : Text) (offset : Nat) :
    lineFeedsWithin (c :: s) (offset + 1) =
      (if c = '\n' then 1 else 0) + lineFeedsWithin s (offset + 1 - c.utf8Size) := by
  have hfirst : ((String.utf8EncodeChar c).take (offset + 1)).count 10 =
      if c = '\n' then 1 else 0 := by
    split
    · rename_i heq
      have hfeed : String.utf8EncodeChar '\n' = [10] := rfl
      rw [heq, hfeed, List.take_succ_cons, List.take_nil]
      rfl
    · rename_i hne
      exact List.count_eq_zero.mpr fun hmem ↦ notMem_utf8EncodeChar hne (List.mem_of_mem_take hmem)
  rw [lineFeedsWithin, toUtf8_cons, List.take_append, List.count_append, hfirst,
    String.length_utf8EncodeChar, lineFeedsWithin]

theorem lineFeedsWithin_le (s : Text) (offset : Nat) : lineFeedsWithin s offset ≤ lineFeeds s := by
  induction s generalizing offset with
  | nil =>
    rw [lineFeedsWithin_nil]
    exact Nat.zero_le _
  | cons c s ih =>
    cases offset with
    | zero =>
      rw [lineFeedsWithin_zero]
      exact Nat.zero_le _
    | succ offset =>
      have hrest := ih (offset + 1 - c.utf8Size)
      rw [lineFeedsWithin_cons, ← List.singleton_append, lineFeeds_append]
      refine Nat.add_le_add ?_ hrest
      split
      · rename_i heq
        rw [heq]
        exact Nat.le_refl 1
      · exact Nat.zero_le _

/-- Going up to the offset one goes over `s`, to the end of its last character: this begins before
the offset and does not end before it. -/
structure ReachesOver (offset : Nat) (s : Text) : Prop where
  begins : ∀ front c, s = front ++ [c] → byteSize front < offset
  ends : offset ≤ byteSize s

theorem reachesOver_byteSize (s : Text) : ReachesOver (byteSize s) s := by
  refine ⟨?_, Nat.le_refl _⟩
  rintro front c rfl
  have hsize := c.utf8Size_pos
  rw [byteSize_append, byteSize_cons, byteSize_nil]
  omega

theorem reachesOver_append_singleton {offset : Nat} {s : Text} {c : Char} (hs : byteSize s < offset)
    (hc : offset ≤ byteSize s + c.utf8Size) : ReachesOver offset (s ++ [c]) := by
  refine ⟨fun front d heq ↦ ?_, ?_⟩
  · rw [← (List.append_inj' heq rfl).1]
    exact hs
  · rwa [byteSize_append, byteSize_cons, byteSize_nil, Nat.add_zero]

theorem ReachesOver.pos {offset : Nat} {s : Text} (h : ReachesOver offset s) (hs : s ≠ []) :
    0 < offset :=
  Nat.zero_lt_of_lt (h.begins s.dropLast (s.getLast hs) (List.dropLast_concat_getLast hs).symm)

theorem ReachesOver.of_append {offset : Nat} {s t : Text} (h : ReachesOver offset (s ++ t)) :
    ReachesOver (offset - byteSize s) t := by
  have hends := h.ends
  rw [byteSize_append] at hends
  refine ⟨?_, by omega⟩
  rintro front c rfl
  have hbegins := h.begins (s ++ front) c (List.append_assoc s front [c]).symm
  rw [byteSize_append] at hbegins
  omega

theorem ReachesOver.cons {offset : Nat} {c : Char} {s : Text} (hpos : 0 < offset)
    (h : ReachesOver (offset - c.utf8Size) s) : ReachesOver offset (c :: s) := by
  have hends := h.ends
  refine ⟨fun front d heq ↦ ?_, by rw [byteSize_cons]; omega⟩
  rcases List.cons_eq_append_iff.mp heq with ⟨rfl, -⟩ | ⟨front, rfl, hs⟩
  · exact hpos
  · have hbegins := h.begins front d hs
    rw [byteSize_cons]
    omega

/-- Every offset into a text reaches over a beginning of the text. -/
theorem exists_reachesOver {offset : Nat} {s : Text} (h : offset ≤ byteSize s) :
    ∃ before after, s = before ++ after ∧ ReachesOver offset before := by
  induction s generalizing offset with
  | nil =>
    obtain rfl := Nat.le_zero.mp h
    exact ⟨[], [], rfl, reachesOver_byteSize []⟩
  | cons c s ih =>
    by_cases hpos : 0 < offset
    · rw [byteSize_cons] at h
      have hrest : offset - c.utf8Size ≤ byteSize s := by omega
      obtain ⟨before, after, rfl, hreaches⟩ := ih hrest
      exact ⟨c :: before, after, rfl, hreaches.cons hpos⟩
    · obtain rfl : offset = 0 := by omega
      exact ⟨[], c :: s, rfl, reachesOver_byteSize []⟩

/-- An offset in front of the end lies in a character of the text or in front of it. -/
theorem exists_char_at {offset : Nat} {s : Text} (h : offset < byteSize s) :
    ∃ front c back, s = front ++ c :: back ∧
      byteSize front ≤ offset ∧ offset < byteSize front + c.utf8Size := by
  induction s generalizing offset with
  | nil => exact absurd h (Nat.not_lt_zero offset)
  | cons c s ih =>
    by_cases hfirst : offset < c.utf8Size
    · exact ⟨[], c, s, rfl, Nat.zero_le _, by simpa using hfirst⟩
    · rw [byteSize_cons] at h
      have hrest : offset - c.utf8Size < byteSize s := by omega
      obtain ⟨front, d, back, rfl, hbegin, hend⟩ := ih hrest
      refine ⟨c :: front, d, back, rfl, ?_, ?_⟩
      · rw [byteSize_cons]
        omega
      · rw [byteSize_cons]
        omega

end Text

namespace Position

open Text

theorem line_advance (p : Position) (s : Text) (offset : Nat) :
    (p.advance offset s).line = p.line + lineFeedsWithin s offset := by
  induction s generalizing p offset with
  | nil => cases offset <;> simp [advance]
  | cons c s ih =>
    cases offset with
    | zero => simp
    | succ offset =>
      rw [advance, ih, lineFeedsWithin_cons]
      unfold after
      split <;> simp only <;> omega

/-- The line of an offset is the number of line feeds before it. -/
theorem line_ofOffset (s : Text) (offset : Nat) :
    (ofOffset s offset).line = lineFeedsWithin s offset := by
  rw [ofOffset, line_advance, Nat.zero_add]

theorem advance_of_reachesOver {offset : Nat} {s : Text} (h : ReachesOver offset s) (t : Text)
    (p : Position) : p.advance offset (s ++ t) = s.foldl after p := by
  induction s generalizing offset p with
  | nil =>
    obtain rfl := Nat.le_zero.mp h.ends
    exact advance_zero p t
  | cons c s ih =>
    have hpos := h.pos (List.cons_ne_nil c s)
    have hrest : ReachesOver (offset - c.utf8Size) s := ReachesOver.of_append (s := [c]) h
    obtain ⟨size, rfl⟩ := Nat.exists_eq_succ_of_ne_zero (Nat.ne_of_gt hpos)
    rw [List.cons_append, advance, ih hrest, List.foldl_cons]

/-- An offset between two characters is reached by going over the characters before it. -/
theorem advance_append (p : Position) (s t : Text) :
    p.advance (byteSize s) (s ++ t) = s.foldl after p :=
  advance_of_reachesOver (reachesOver_byteSize s) t p

theorem advance_of_byteSize_le {s : Text} {offset : Nat} (h : byteSize s ≤ offset) (p : Position) :
    p.advance offset s = s.foldl after p := by
  induction s generalizing offset p with
  | nil => cases offset <;> rfl
  | cons c s ih =>
    have hsize := c.utf8Size_pos
    rw [byteSize_cons] at h
    cases offset with
    | zero => omega
    | succ offset =>
      rw [advance, List.foldl_cons]
      exact ih (by omega) (p.after c)

theorem ofOffset_min (s : Text) (offset : Nat) :
    ofOffset s (min offset (byteSize s)) = ofOffset s offset := by
  rcases Nat.le_total offset (byteSize s) with h | h
  · rw [Nat.min_eq_left h]
  · rw [Nat.min_eq_right h, ofOffset, ofOffset, advance_of_byteSize_le (Nat.le_refl _),
      advance_of_byteSize_le h]

theorem foldl_after_of_notMem {s : Text} (h : '\n' ∉ s) (p : Position) :
    s.foldl after p = ⟨p.line, p.character + s.length⟩ := by
  induction s generalizing p with
  | nil => rfl
  | cons c s ih =>
    have hc := List.ne_of_not_mem_cons h
    rw [List.foldl_cons, ih (List.not_mem_of_not_mem_cons h), after, if_neg (Ne.symm hc),
      List.length_cons]
    simp only [mk.injEq, true_and]
    omega

/-- Behind a text one stands on its last line, after all characters of that line. -/
theorem exists_foldl_after (s : Text) (line : Nat) :
    ∃ last, (lines s)[lineFeeds s]? = some last ∧
      s.foldl after ⟨line, 0⟩ = ⟨line + lineFeeds s, last.length⟩ := by
  induction s using row_induction generalizing line with
  | nil => exact ⟨[], rfl, rfl⟩
  | last row hne hnot =>
    refine ⟨row, ?_, ?_⟩
    · rw [lines_of_notMem hnot, lineFeeds_of_notMem hnot, List.getElem?_cons_zero]
    · rw [foldl_after_of_notMem hnot, lineFeeds_of_notMem hnot, Nat.zero_add, Nat.add_zero]
  | cons body rest hbody ih =>
    obtain ⟨last, hlast, hfold⟩ := ih (line + 1)
    refine ⟨last, ?_, ?_⟩
    · rw [lines_body_append hbody, lineFeeds_body_append hbody, List.getElem?_cons_succ, hlast]
    · rw [List.foldl_append, foldl_after_of_notMem hbody, List.foldl_cons, after, if_pos rfl, hfold,
        lineFeeds_body_append hbody, Nat.add_assoc, Nat.add_comm 1]

/-- The position of an offset that ends a number of whole characters. -/
theorem exists_ofOffset {s t : Text} {offset : Nat}
    (h : byteSize s = min offset (byteSize (s ++ t))) :
    ∃ last, (lines s)[lineFeeds s]? = some last ∧
      ofOffset (s ++ t) offset = ⟨lineFeeds s, last.length⟩ := by
  obtain ⟨last, hlast, hfold⟩ := exists_foldl_after s 0
  rw [Nat.zero_add] at hfold
  exact ⟨last, hlast, by rw [← ofOffset_min, ← h, ofOffset, advance_append, hfold]⟩

theorem line_ofOffset_of_reachesOver {offset : Nat} {s : Text} (h : ReachesOver offset s)
    (t : Text) : (ofOffset (s ++ t) offset).line = lineFeeds s := by
  obtain ⟨last, -, hfold⟩ := exists_foldl_after s 0
  rw [ofOffset, advance_of_reachesOver h, hfold, Nat.zero_add]

/-- A character stands on one line with all of its bytes. -/
theorem line_ofOffset_append_cons {front : Text} {c : Char} {offset : Nat}
    (hbegin : byteSize front ≤ offset) (hend : offset < byteSize front + c.utf8Size)
    (back : Text) : (ofOffset (front ++ c :: back) offset).line = lineFeeds front := by
  rcases Nat.eq_or_lt_of_le hbegin with rfl | hinside
  · exact line_ofOffset_of_reachesOver (reachesOver_byteSize front) (c :: back)
  · have hc : c ≠ '\n' := by
      rintro rfl
      have hsize : '\n'.utf8Size = 1 := rfl
      omega
    rw [List.append_cons, line_ofOffset_of_reachesOver
      (reachesOver_append_singleton hinside (Nat.le_of_lt hend)), lineFeeds_append,
      lineFeeds_of_notMem (mt List.mem_singleton.mp hc.symm), Nat.add_zero]

theorem line_ofOffset_of_byteSize_le {s : Text} {offset : Nat} (h : byteSize s ≤ offset) :
    (ofOffset s offset).line = lineFeeds s := by
  rw [← ofOffset_min, Nat.min_eq_right h]
  simpa using line_ofOffset_of_reachesOver (reachesOver_byteSize s) []

end Position

end FencedCode
