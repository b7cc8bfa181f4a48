import FencedCode.Diagnostic.LineStart
import FencedCode.Proofs.Text.Offset
import Mathlib.Data.Prod.Lex
import Mathlib.Data.Set.Function

/-!
# Positions by line starts

Going over a text up to an offset one stops behind the character that the offset lies in, and the
last line feed on the way is where the line of the offset begins. So the line starts that are not
behind the offset are those on the way. Looking the line up among them finds it, and counting from
its beginning gives the character. At the borders of characters positions grow with the offset, so
that none is the position of two borders.
-/

namespace FencedCode

/-! ## Halving -/

/-- Halving counts the items that satisfy the predicate, when none of them comes behind another
item. -/
theorem bisect_eq_countP {α : Type} {p : α → Bool} {items : List α}
    (h : items.Pairwise fun a b ↦ p b → p a) : bisect p items = items.countP p := by
  fun_induction bisect p items with
  | case1 items hdrop =>
    have hlength := List.drop_eq_nil_iff.mp hdrop
    have hnil : items = [] := List.eq_nil_of_length_eq_zero (by omega)
    rw [hnil, List.countP_nil]
  | case2 items middle behind hdrop hmiddle ih =>
    have hsplit : items = items.take (items.length / 2) ++ middle :: behind := by
      rw [← hdrop, List.take_append_drop]
    have hhalf : items.length / 2 = (items.take (items.length / 2)).length := by
      rw [List.length_take]
      omega
    rw [hhalf]
    generalize items.take (items.length / 2) = front at hsplit
    subst hsplit
    obtain ⟨-, hbehind, hcross⟩ := List.pairwise_append.mp h
    have hfront : front.countP p = front.length := List.countP_eq_length.mpr fun a ha ↦
      hcross a ha middle List.mem_cons_self hmiddle
    rw [ih (List.pairwise_cons.mp hbehind).2, List.countP_append, hfront,
      List.countP_cons_of_pos hmiddle]
    omega
  | case3 items middle behind hdrop hmiddle ih =>
    have hsplit : items = items.take (items.length / 2) ++ middle :: behind := by
      rw [← hdrop, List.take_append_drop]
    generalize items.take (items.length / 2) = front at hsplit ih ⊢
    subst hsplit
    obtain ⟨hfront, hbehind, -⟩ := List.pairwise_append.mp h
    have hnone : behind.countP p = 0 := List.countP_eq_zero.mpr fun b hb hp ↦
      hmiddle ((List.pairwise_cons.mp hbehind).1 b hb hp)
    rw [ih hfront, List.countP_append, List.countP_cons_of_neg hmiddle, hnone, Nat.add_zero]

namespace Text

/-! ## Line starts -/

theorem startsBehind_append (offset : Nat) (s t : Text) :
    startsBehind offset (s ++ t) =
      startsBehind offset s ++ startsBehind (offset + byteSize s) t := by
  induction s generalizing offset with
  | nil => rfl
  | cons c s ih =>
    simp only [List.cons_append, startsBehind, ih, byteSize_cons, Nat.add_assoc]
    split
    · rfl
    · rfl

theorem startsBehind_of_notMem {s : Text} (h : '\n' ∉ s) (offset : Nat) :
    startsBehind offset s = [] := by
  induction s generalizing offset with
  | nil => rfl
  | cons c s ih =>
    have hc := List.ne_of_not_mem_cons h
    simp only [startsBehind, if_neg (Ne.symm hc)]
    exact ih (List.not_mem_of_not_mem_cons h) _

theorem length_startsBehind (offset : Nat) (s : Text) :
    (startsBehind offset s).length = lineFeeds s := by
  induction s generalizing offset with
  | nil => rfl
  | cons c s ih =>
    by_cases hc : c = '\n'
    · rw [startsBehind, if_pos hc, List.length_cons, ih, hc, lineFeeds, lineFeeds,
        List.count_cons_self]
    · rw [startsBehind, if_neg hc, ih, lineFeeds, lineFeeds, List.count_cons_of_ne hc]

theorem bounds_of_mem_startsBehind {offset start : Nat} {s : Text}
    (h : start ∈ startsBehind offset s) : offset < start ∧ start ≤ offset + byteSize s := by
  induction s generalizing offset with
  | nil => exact absurd h List.not_mem_nil
  | cons c s ih =>
    have hsize := c.utf8Size_pos
    rw [startsBehind] at h
    rw [byteSize_cons]
    split at h
    · rcases List.mem_cons.mp h with rfl | hrest
      · omega
      · have hbounds := ih hrest
        omega
    · have hbounds := ih h
      omega

theorem pairwise_lineStarts (s : Text) : (lineStarts s).Pairwise (· < ·) := by
  have hbehind : ∀ offset, (startsBehind offset s).Pairwise (· < ·) := by
    induction s with
    | nil => exact fun _ ↦ List.Pairwise.nil
    | cons c s ih =>
      intro offset
      rw [startsBehind]
      split
      · exact List.pairwise_cons.mpr ⟨fun _ h ↦ (bounds_of_mem_startsBehind h).1, ih _⟩
      · exact ih _
  exact List.pairwise_cons.mpr ⟨fun _ h ↦ (bounds_of_mem_startsBehind h).1, hbehind 0⟩

theorem length_lineStarts (s : Text) : (lineStarts s).length = lineCount s := by
  rw [lineStarts, List.length_cons, length_startsBehind, lineCount]

theorem lineStarts_append (s t : Text) :
    lineStarts (s ++ t) = lineStarts s ++ startsBehind (byteSize s) t := by
  rw [lineStarts, startsBehind_append, Nat.zero_add, lineStarts, List.cons_append]

/-- The last line of a terminated text begins at its end. -/
theorem getElem?_lineStarts_of_terminated {s : Text} (h : Terminated s) :
    (lineStarts s)[lineFeeds s]? = some (byteSize s) := by
  by_cases hs : s = []
  · rw [hs]
    rfl
  · obtain ⟨t, rfl⟩ := h.exists_append hs
    have hlength : lineFeeds (t ++ ['\n']) = (lineStarts t).length := by
      rw [length_lineStarts, lineFeeds_append]
      rfl
    rw [hlength, lineStarts_append, List.getElem?_append_right (Nat.le_refl _), Nat.sub_self,
      byteSize_append]
    rfl

theorem le_of_mem_lineStarts {start : Nat} {s : Text} (h : start ∈ lineStarts s) :
    start ≤ byteSize s := by
  rcases List.mem_cons.mp h with rfl | hbehind
  · exact Nat.zero_le _
  · have hbounds := bounds_of_mem_startsBehind hbehind
    omega

theorem dropBytes?_append (s t : Text) : dropBytes? (byteSize s) (s ++ t) = some t := by
  induction s with
  | nil => cases t <;> rfl
  | cons c s ih =>
    have hsize : c.utf8Size + byteSize s = (c.utf8Size + byteSize s - 1) + 1 := by
      have hpos := c.utf8Size_pos
      omega
    rw [byteSize_cons, List.cons_append, hsize, dropBytes?, ← hsize, if_pos (Nat.le_add_right _ _),
      Nat.add_sub_cancel_left, ih]

/-! ## Characters -/

/-- The characters that begin before an offset are those that it reaches over. -/
theorem length_takeWhile_charStarts {base offset : Nat} {s : Text}
    (h : ReachesOver (offset - base) s) (t : Text) :
    ((charStarts base (s ++ t)).takeWhile (· < offset)).length = s.length := by
  induction s generalizing base with
  | nil =>
    have hends := h.ends
    rw [byteSize_nil] at hends
    cases t with
    | nil => rfl
    | cons c t =>
      rw [List.nil_append, charStarts, List.takeWhile_cons_of_neg (by simpa using by omega)]
      rfl
  | cons c s ih =>
    have hpos := h.pos (List.cons_ne_nil c s)
    have hrest : ReachesOver (offset - (base + c.utf8Size)) s := by
      have hof := ReachesOver.of_append (s := [c]) h
      rwa [byteSize_cons, byteSize_nil, Nat.add_zero, Nat.sub_sub] at hof
    rw [List.cons_append, charStarts, List.takeWhile_cons_of_pos (by simpa using by omega),
      List.length_cons, ih hrest, List.length_cons]

end Text

namespace Position

open Text

/-! ## Positions of offsets -/

theorem foldl_after_of_terminated {front row : Text} (hfront : Terminated front)
    (hrow : '\n' ∉ row) : (front ++ row).foldl after ⟨0, 0⟩ = ⟨lineFeeds front, row.length⟩ := by
  obtain ⟨last, hlast, hfold⟩ := exists_foldl_after front 0
  obtain rfl : [] = last := Option.some.inj ((getElem?_lines_of_terminated hfront).symm.trans hlast)
  rw [List.foldl_append, hfold, foldl_after_of_notMem hrow, Nat.zero_add, List.length_nil,
    Nat.zero_add]

theorem ofOffset_of_reachesOver {front row after : Text} {offset : Nat} (hfront : Terminated front)
    (hrow : '\n' ∉ row) (h : ReachesOver offset (front ++ row)) :
    ofOffset (front ++ row ++ after) offset = ⟨lineFeeds front, row.length⟩ := by
  rw [ofOffset, advance_of_reachesOver h, foldl_after_of_terminated hfront hrow]

/-- A line begins on the way to every offset that it reaches. -/
theorem byteSize_le_of_reachesOver {front row : Text} {offset : Nat} (hfront : Terminated front)
    (h : ReachesOver offset (front ++ row)) : byteSize front ≤ offset := by
  by_cases hrow : row = []
  · rw [hrow, List.append_nil] at h
    by_cases hnil : front = []
    · rw [hnil]
      exact Nat.zero_le _
    · obtain ⟨t, rfl⟩ := hfront.exists_append hnil
      have hbegins := h.begins t '\n' rfl
      rw [byteSize_append]
      exact hbegins
  · have hpos := h.of_append.pos hrow
    omega

/-- The line starts that are not behind an offset are those on the way to it. -/
theorem countP_lineStarts {front row : Text} {offset : Nat} (hfront : Terminated front)
    (hrow : '\n' ∉ row) (h : ReachesOver offset (front ++ row)) (after : Text) :
    (lineStarts (front ++ row ++ after)).countP (fun start ↦ start ≤ offset) =
      lineFeeds front + 1 := by
  have hon : (lineStarts front).countP (fun start ↦ start ≤ offset) =
      (lineStarts front).length := by
    refine List.countP_eq_length.mpr fun start hstart ↦ decide_eq_true ?_
    exact (le_of_mem_lineStarts hstart).trans (byteSize_le_of_reachesOver hfront h)
  have hbehind : (startsBehind (byteSize (front ++ row)) after).countP
      (fun start ↦ start ≤ offset) = 0 := by
    refine List.countP_eq_zero.mpr fun start hstart hle ↦ ?_
    have hbounds := bounds_of_mem_startsBehind hstart
    have hends := h.ends
    have hstop := of_decide_eq_true hle
    omega
  rw [lineStarts_append, lineStarts_append, startsBehind_of_notMem hrow, List.append_nil,
    List.countP_append, hon, hbehind, length_lineStarts, lineCount, Nat.add_zero]

theorem locate?_of_reachesOver {front row after : Text} {offset : Nat} (hfront : Terminated front)
    (hrow : '\n' ∉ row)
    (h : ReachesOver (min offset (byteSize (front ++ row ++ after))) (front ++ row)) :
    locate? (front ++ row ++ after) offset = some ⟨lineFeeds front, row.length⟩ := by
  have hline : bisect (fun start ↦ start ≤ min offset (byteSize (front ++ row ++ after)))
      (lineStarts (front ++ row ++ after)) = lineFeeds front + 1 := by
    rw [bisect_eq_countP, countP_lineStarts hfront hrow h]
    refine (pairwise_lineStarts _).imp fun hlt hle ↦ ?_
    exact decide_eq_true (hlt.le.trans (of_decide_eq_true hle))
  have hstart : (lineStarts (front ++ row ++ after))[lineFeeds front]? = some (byteSize front) := by
    have hfirst := getElem?_lineStarts_of_terminated hfront
    rw [List.append_assoc, lineStarts_append,
      List.getElem?_append_left (List.getElem?_eq_some_iff.mp hfirst).1, hfirst]
  have hrest : dropBytes? (byteSize front) (front ++ row ++ after) = some (row ++ after) := by
    rw [List.append_assoc, dropBytes?_append]
  unfold locate?
  simp only [hline, hstart, hrest, Option.bind_eq_bind, Option.bind_some,
    length_takeWhile_charStarts h.of_append]
  rfl

/-- Looking a position up comes to the same as going over the text. -/
theorem locate?_eq (text : Text) (offset : Nat) :
    locate? text offset = some (ofOffset text offset) := by
  obtain ⟨before, after, rfl, h⟩ :=
    exists_reachesOver (Nat.min_le_right offset (byteSize text))
  obtain ⟨front, row, rfl, hfront, hrow⟩ := exists_terminated_append before
  rw [locate?_of_reachesOver hfront hrow h, ← ofOffset_min, ofOffset_of_reachesOver hfront hrow h]

/-! ## The order of positions -/

/-- Positions are ordered by their lines, and on one line by their characters. -/
instance : Preorder Position :=
  Preorder.lift fun p ↦ toLex (p.line, p.character)

theorem lt_iff {p q : Position} :
    p < q ↔ p.line < q.line ∨ p.line = q.line ∧ p.character < q.character :=
  Prod.Lex.toLex_lt_toLex

theorem lt_after (p : Position) (c : Char) : p < p.after c := by
  rw [lt_iff, after]
  split
  · exact .inl (Nat.lt_succ_self _)
  · exact .inr ⟨rfl, Nat.lt_succ_self _⟩

theorem le_foldl_after (p : Position) (s : Text) : p ≤ s.foldl after p := by
  induction s generalizing p with
  | nil => exact le_refl p
  | cons c s ih => exact (lt_after p c).le.trans (ih (p.after c))

/-- The offsets in front of the characters of a text and at its end. -/
def borders (text : Text) : Set Nat :=
  {offset | ∃ before, before <+: text ∧ byteSize before = offset}

theorem ofOffset_byteSize {before text : Text} (h : before <+: text) :
    ofOffset text (byteSize before) = before.foldl after ⟨0, 0⟩ := by
  obtain ⟨rest, rfl⟩ := h
  exact advance_append ⟨0, 0⟩ before rest

theorem strictMonoOn_ofOffset (text : Text) : StrictMonoOn (ofOffset text) (borders text) := by
  rintro _ ⟨before, hbefore, rfl⟩ _ ⟨longer, hlonger, rfl⟩ hlt
  rw [ofOffset_byteSize hbefore, ofOffset_byteSize hlonger]
  rcases List.prefix_or_prefix_of_prefix hbefore hlonger with ⟨piece, rfl⟩ | ⟨piece, rfl⟩
  · cases piece with
    | nil =>
      rw [List.append_nil] at hlt
      exact absurd hlt (lt_irrefl _)
    | cons c piece =>
      rw [List.foldl_append, List.foldl_cons]
      exact (lt_after _ c).trans_le (le_foldl_after _ piece)
  · rw [byteSize_append] at hlt
    omega

/-- Every offset has a position, on one of the lines of the text, and behind the end it is that of
the end. At the borders of characters the line is the number of line feeds in front, and the
character is the number of characters behind the last of them. There positions grow with the offset,
so each of them is the position of one border only. -/
theorem locate?_eq_and_strictMonoOn (text : Text) :
    (∀ offset, locate? text offset = some (ofOffset text offset) ∧
      (ofOffset text offset).line < (lineStarts text).length) ∧
    (∀ offset, byteSize text ≤ offset → ofOffset text offset = ofOffset text (byteSize text)) ∧
    (∀ before after, text = before ++ after → ∃ front row, before = front ++ row ∧
      Terminated front ∧ '\n' ∉ row ∧
      ofOffset text (byteSize before) = ⟨lineFeeds before, row.length⟩) ∧
    StrictMonoOn (ofOffset text) (borders text) ∧ Set.InjOn (ofOffset text) (borders text) := by
  refine ⟨fun offset ↦ ⟨locate?_eq text offset, ?_⟩, fun offset hend ↦ ?_, ?_,
    strictMonoOn_ofOffset text, (strictMonoOn_ofOffset text).injOn⟩
  · rw [line_ofOffset, length_lineStarts, lineCount]
    exact Nat.lt_succ_of_le (lineFeedsWithin_le text offset)
  · rw [← ofOffset_min, Nat.min_eq_right hend]
  · rintro before after rfl
    obtain ⟨front, row, rfl, hfront, hrow⟩ := exists_terminated_append before
    refine ⟨front, row, rfl, hfront, hrow, ?_⟩
    rw [ofOffset_of_reachesOver hfront hrow (reachesOver_byteSize _), lineFeeds_append,
      lineFeeds_of_notMem hrow, Nat.add_zero]

theorem locate?_twoLines :
    byteSize "ü\nx".toList ≤ 999 ∧ locate? "ü\nx".toList 999 = some ⟨1, 1⟩ ∧
      (ofOffset "ü\nx".toList 999).line < 2 ∧
      ∃ row : Text, row.length = 0 ∧
        locate? "ü\nx".toList 3 = some ⟨lineFeeds "ü\n".toList, row.length⟩ := by
  obtain ⟨hlocate, hend, hborder, -⟩ := locate?_eq_and_strictMonoOn "ü\nx".toList
  have hsize : byteSize "ü\nx".toList ≤ 999 := by decide
  have hcut : "ü\nx".toList = "ü\n".toList ++ ['x'] := by decide
  refine ⟨hsize, ?_, (hlocate 999).2, ?_⟩
  · rw [(hlocate 999).1, hend 999 hsize]
    decide
  · obtain ⟨front, row, -, -, -, hposition⟩ := hborder _ _ hcut
    have hstart : ofOffset "ü\nx".toList (byteSize "ü\n".toList) = ⟨1, 0⟩ := by decide
    refine ⟨row, (congrArg Position.character (hposition.symm.trans hstart)), ?_⟩
    rw [(hlocate 3).1, ← hposition]
    rfl

/-- An offset inside a character is placed behind the character, as the border behind it is. The
character that it lies in is counted. -/
theorem locate?_inside_char (before after : Text) (c : Char) (offset : Nat)
    (hbegin : byteSize before < offset) (hend : offset < byteSize before + c.utf8Size) :
    locate? (before ++ c :: after) offset =
      locate? (before ++ c :: after) (byteSize before + c.utf8Size) ∧
    ∃ line character, locate? (before ++ c :: after) (byteSize before) = some ⟨line, character⟩ ∧
      locate? (before ++ c :: after) offset = some ⟨line, character + 1⟩ := by
  have hc : c ≠ '\n' := by
    rintro rfl
    have hsize : '\n'.utf8Size = 1 := rfl
    omega
  obtain ⟨front, row, rfl, hfront, hrow⟩ := exists_terminated_append before
  have hlonger : '\n' ∉ row ++ [c] := by
    rw [List.mem_append, List.mem_singleton]
    exact not_or.mpr ⟨hrow, hc.symm⟩
  have htext : front ++ row ++ c :: after = front ++ (row ++ [c]) ++ after := by
    simp only [List.append_assoc, List.singleton_append]
  -- All offsets from behind the first byte on, up to the next border, reach over the character.
  have hover : ∀ stop, byteSize (front ++ row) < stop →
      stop ≤ byteSize (front ++ row) + c.utf8Size →
      locate? (front ++ row ++ c :: after) stop = some ⟨lineFeeds front, row.length + 1⟩ := by
    intro stop hover hwithin
    have hreaches := reachesOver_append_singleton hover hwithin
    rw [List.append_assoc] at hreaches
    rw [locate?_eq, htext, ofOffset_of_reachesOver hfront hlonger hreaches, List.length_append,
      List.length_singleton]
  have hpos := c.utf8Size_pos
  refine ⟨?_, lineFeeds front, row.length, ?_, hover offset hbegin hend.le⟩
  · rw [hover offset hbegin hend.le, hover _ (by omega) (Nat.le_refl _)]
  · rw [locate?_eq, ofOffset_of_reachesOver hfront hrow (reachesOver_byteSize _)]

theorem locate?_inside_umlaut :
    byteSize ['a'] < 2 ∧ 2 < byteSize ['a'] + 'ü'.utf8Size ∧
      locate? (['a'] ++ ['ü']) 2 = locate? (['a'] ++ ['ü']) (byteSize ['a'] + 'ü'.utf8Size) := by
  have hbegin : byteSize ['a'] < 2 := by decide
  have hend : 2 < byteSize ['a'] + 'ü'.utf8Size := by decide
  exact ⟨hbegin, hend, (locate?_inside_char ['a'] [] 'ü' 2 hbegin hend).1⟩

theorem locate?_inside_char_ne :
    byteSize ['a'] < 2 ∧ 2 < byteSize ['a'] + 'ü'.utf8Size ∧
      locate? ['a', 'ü'] 2 ≠ locate? ['a', 'ü'] (byteSize ['a']) := by
  rw [locate?_eq, locate?_eq]
  decide

end Position

end FencedCode
