import FencedCode.Json.Relaxed
import FencedCode.Proofs.Text.Offset
import Mathlib.Data.List.Forall2

/-!
# The lines of a relaxed text

What the pass has written comes from what it has read: characters were left out, and some commas
became spaces. No line feed was left out. So every line of the result comes from the line of the
same number, and where a reader of the result stops, the line that it reports is the line of the
configuration file in which the character stands that it met.
-/

namespace FencedCode.Json

open Text

/-! ## Thinned texts -/

/-- A character stands for itself, and a space may stand for a comma. -/
def StandsFor (d c : Char) : Prop := d = c ∨ d = ' ' ∧ c = ','

instance : Std.Refl StandsFor := ⟨fun _ ↦ .inl rfl⟩

instance : IsTrans Char StandsFor where
  trans := by
    rintro d c b (rfl | ⟨rfl, rfl⟩) hcb
    · exact hcb
    · rcases hcb with rfl | ⟨hspace, -⟩
      · exact .inr ⟨rfl, rfl⟩
      · exact absurd hspace (by decide)

theorem StandsFor.eq_lineFeed_iff {d c : Char} (h : StandsFor d c) : d = '\n' ↔ c = '\n' := by
  rcases h with rfl | ⟨rfl, rfl⟩
  · exact Iff.rfl
  · decide

/-- The text comes from another one, of which characters were left out while some commas became
spaces. -/
def ThinnedFrom (t s : Text) : Prop := List.SublistForall₂ StandsFor t s

theorem thinnedFrom_iff {t s : Text} :
    ThinnedFrom t s ↔ ∃ kept, List.Forall₂ StandsFor t kept ∧ kept.Sublist s :=
  List.sublistForall₂_iff

theorem ThinnedFrom.refl (s : Text) : ThinnedFrom s s :=
  List.SublistForall₂.is_refl.refl s

theorem ThinnedFrom.trans {t s r : Text} (hts : ThinnedFrom t s) (hsr : ThinnedFrom s r) :
    ThinnedFrom t r :=
  List.SublistForall₂.is_trans.trans t s r hts hsr

theorem ThinnedFrom.append {t t' s s' : Text} (h : ThinnedFrom t s) (h' : ThinnedFrom t' s') :
    ThinnedFrom (t ++ t') (s ++ s') := by
  obtain ⟨kept, hcopied, hkept⟩ := thinnedFrom_iff.mp h
  obtain ⟨kept', hcopied', hkept'⟩ := thinnedFrom_iff.mp h'
  exact thinnedFrom_iff.mpr
    ⟨kept ++ kept', List.rel_append hcopied hcopied', hkept.append hkept'⟩

theorem lineFeeds_eq_of_forall₂ {t s : Text} (h : List.Forall₂ StandsFor t s) :
    lineFeeds t = lineFeeds s := by
  induction h with
  | nil => rfl
  | @cons d c t s hcopied _ ih =>
    have hfeed : (d == '\n') = (c == '\n') := by
      rw [Bool.eq_iff_iff, beq_iff_eq, beq_iff_eq]
      exact hcopied.eq_lineFeed_iff
    rw [lineFeeds, lineFeeds, List.count_cons, List.count_cons, hfeed]
    exact congrArg (· + _) ih

theorem ThinnedFrom.lineFeeds_le {t s : Text} (h : ThinnedFrom t s) :
    lineFeeds t ≤ lineFeeds s := by
  obtain ⟨kept, hcopied, hkept⟩ := thinnedFrom_iff.mp h
  calc
    _ = lineFeeds kept := lineFeeds_eq_of_forall₂ hcopied
    _ ≤ lineFeeds s := hkept.count_le '\n'

/-- Every remaining character has a place that it was taken from. -/
theorem ThinnedFrom.exists_cut {front back s : Text} {d : Char}
    (h : ThinnedFrom (front ++ d :: back) s) :
    ∃ before c after, s = before ++ c :: after ∧
      ThinnedFrom front before ∧ StandsFor d c ∧ ThinnedFrom back after := by
  generalize hwhole : front ++ d :: back = t at h
  induction h generalizing front with
  | nil => exact absurd hwhole (by simp)
  | @cons a b t s hab hts ih =>
    cases front with
    | nil =>
      obtain ⟨rfl, rfl⟩ := List.cons.inj hwhole
      exact ⟨[], b, s, rfl, .nil, hab, hts⟩
    | cons a' front =>
      obtain ⟨rfl, htail⟩ := List.cons.inj hwhole
      obtain ⟨before, c, after, rfl, hfront, hcopied, hback⟩ := ih htail
      exact ⟨b :: before, c, after, rfl, .cons hab hfront, hcopied, hback⟩
  | @cons_right b t s hts ih =>
    obtain ⟨before, c, after, rfl, hfront, hcopied, hback⟩ := ih hwhole
    exact ⟨b :: before, c, after, rfl, .cons_right hfront, hcopied, hback⟩

/-! ## Texts that keep their lines -/

/-- A thinned text of which no line feed was left out. -/
structure KeepsLines (t s : Text) : Prop where
  thinned : ThinnedFrom t s
  lineFeeds_eq : lineFeeds t = lineFeeds s

namespace KeepsLines

variable {t t' s s' : Text}

theorem refl (s : Text) : KeepsLines s s := ⟨.refl s, rfl⟩

theorem trans {r : Text} (hts : KeepsLines t s) (hsr : KeepsLines s r) : KeepsLines t r :=
  ⟨hts.thinned.trans hsr.thinned, hts.lineFeeds_eq.trans hsr.lineFeeds_eq⟩

theorem append (h : KeepsLines t s) (h' : KeepsLines t' s') : KeepsLines (t ++ t') (s ++ s') := by
  refine ⟨h.thinned.append h'.thinned, ?_⟩
  rw [lineFeeds_append, lineFeeds_append, h.lineFeeds_eq, h'.lineFeeds_eq]

/-- Neither side of a character has lost a line feed. -/
theorem exists_cut {front back : Text} {d : Char} (h : KeepsLines (front ++ d :: back) s) :
    ∃ before c after, s = before ++ c :: after ∧
      KeepsLines front before ∧ StandsFor d c ∧ KeepsLines back after := by
  obtain ⟨before, c, after, rfl, hfront, hcopied, hback⟩ := h.thinned.exists_cut
  have hchar : lineFeeds [d] = lineFeeds [c] := lineFeeds_eq_of_forall₂ (.cons hcopied .nil)
  have hall : lineFeeds (front ++ ([d] ++ back)) = lineFeeds (before ++ ([c] ++ after)) :=
    h.lineFeeds_eq
  rw [lineFeeds_append, lineFeeds_append, lineFeeds_append, lineFeeds_append, hchar] at hall
  have hbefore := hfront.lineFeeds_le
  have hafter := hback.lineFeeds_le
  exact ⟨before, c, after, rfl, ⟨hfront, by omega⟩, hcopied, ⟨hback, by omega⟩⟩

theorem lineFeed_notMem (h : KeepsLines t s) (ht : '\n' ∉ t) : '\n' ∉ s := by
  rw [← List.count_eq_zero]
  exact h.lineFeeds_eq.symm.trans (lineFeeds_of_notMem ht)

theorem forall₂_lines_of_notMem (h : KeepsLines t s) (ht : '\n' ∉ t) :
    List.Forall₂ ThinnedFrom (lines t) (lines s) := by
  rw [lines_of_notMem ht, lines_of_notMem (h.lineFeed_notMem ht)]
  exact .cons h.thinned .nil

/-- Line by line, the text comes from the other one. -/
theorem forall₂_lines (h : KeepsLines t s) : List.Forall₂ ThinnedFrom (lines t) (lines s) := by
  induction t using row_induction generalizing s with
  | nil => exact h.forall₂_lines_of_notMem List.not_mem_nil
  | last row hne hnot => exact h.forall₂_lines_of_notMem hnot
  | cons body rest hbody ih =>
    obtain ⟨before, c, after, rfl, hfront, hcopied, hback⟩ := h.exists_cut
    obtain rfl := hcopied.eq_lineFeed_iff.mp rfl
    rw [lines_body_append hbody, lines_body_append (hfront.lineFeed_notMem hbody)]
    exact .cons hfront.thinned (ih hback)

end KeepsLines

/-! ## The pass -/

section Pass

variable {written consumed : Text}

theorem keepsLines_copied (h : KeepsLines written.reverse consumed) (c : Char) :
    KeepsLines (c :: written).reverse (consumed ++ [c]) := by
  rw [List.reverse_cons]
  exact h.append (.refl [c])

theorem keepsLines_left_out {c : Char} (h : KeepsLines written.reverse consumed) (hc : c ≠ '\n') :
    KeepsLines written.reverse (consumed ++ [c]) := by
  have hnone : lineFeeds [c] = 0 := lineFeeds_of_notMem (mt List.mem_singleton.mp hc.symm)
  have hout : KeepsLines [] [c] := ⟨.nil, hnone.symm⟩
  simpa using h.append hout

/-- Going back to a comma changes no line, also when the comma stands on an earlier one. -/
theorem keepsLines_blankComma (h : KeepsLines written.reverse consumed) :
    KeepsLines (blankComma written).reverse consumed := by
  refine KeepsLines.trans ?_ h
  unfold blankComma
  split
  · rename_i before hcomma
    have hblanked : KeepsLines [' '] [','] := ⟨.cons (.inr ⟨rfl, rfl⟩) .nil, rfl⟩
    have hcut := ((KeepsLines.refl before.reverse).append hblanked).append
      (KeepsLines.refl (written.takeWhile isBlank).reverse)
    rwa [← List.reverse_cons, ← List.reverse_cons, ← List.reverse_append, ← List.reverse_append,
      ← hcomma, List.takeWhile_append_dropWhile] at hcut
  · exact .refl written.reverse

/-- What the pass writes keeps the lines of what it reads, in every region of the text. Behind the
slash that opens a block comment comes its star, so the character left out there is no line
feed. -/
theorem keepsLines_relaxFrom (region : Region) (s : Text)
    (hstart : region = .blockStart → s.head? = some '*')
    (hwritten : KeepsLines written.reverse consumed) :
    KeepsLines (relaxFrom region written s) (consumed ++ s) := by
  fun_induction relaxFrom region written s generalizing consumed with
  | case1 =>
    rw [List.append_nil]
    exact hwritten
  -- Plain characters, those of a string and the line feed behind a line comment are copied.
  | case2 written s ih
  | case6 written c s _ _ _ _ ih
  | case7 written s ih
  | case8 written s _ ih
  | case9 written c s _ _ ih
  | case10 written c s ih
  | case11 written s ih =>
    rw [List.append_cons]
    exact ih nofun (keepsLines_copied hwritten _)
  -- The slash in front of a comment is left out.
  | case3 written c s _ hline ih =>
    have hslash : c ≠ '\n' := hline.1 ▸ by decide
    rw [List.append_cons]
    exact ih nofun (keepsLines_left_out hwritten hslash)
  | case4 written c s _ _ hblock ih =>
    have hslash : c ≠ '\n' := hblock.1 ▸ by decide
    rw [List.append_cons]
    exact ih (fun _ ↦ hblock.2) (keepsLines_left_out hwritten hslash)
  -- A closing bracket blanks the comma behind which it stands.
  | case5 written c s _ _ _ _ ih =>
    rw [List.append_cons]
    exact ih nofun (keepsLines_copied (keepsLines_blankComma hwritten) c)
  -- Inside of a comment only a line feed is copied.
  | case12 written c s hfeed ih =>
    rw [List.append_cons]
    exact ih nofun (keepsLines_left_out hwritten hfeed)
  | case13 written c s ih =>
    obtain rfl : c = '*' := Option.some.inj (hstart rfl)
    rw [List.append_cons]
    exact ih nofun (keepsLines_left_out hwritten (by decide))
  | case14 star written c s hend ih =>
    have hslash : c ≠ '\n' := hend.2 ▸ by decide
    rw [List.append_cons]
    exact ih nofun (keepsLines_left_out hwritten hslash)
  | case15 star written c s _ ih =>
    rw [List.append_cons]
    refine ih nofun ?_
    split
    · exact keepsLines_copied hwritten c
    · rename_i hfeed
      exact keepsLines_left_out hwritten hfeed

end Pass

theorem keepsLines_relax (s : Text) : KeepsLines (relax s) s := by
  have hwritten : KeepsLines (List.reverse []) [] := .refl []
  exact keepsLines_relaxFrom .plain s nofun hwritten

/-! ## Where a reader stops -/

/-- The place in a text of what a reader meets at an offset of the thinned text: that of the
character that the offset lies in or in front of, and behind the last character that of the end. -/
inductive Origin (t s : Text) : Nat → Nat → Prop
  | char {front back before after : Text} {d c : Char} {offset : Nat}
      (ht : t = front ++ d :: back) (hs : s = before ++ c :: after)
      (hbegin : byteSize front ≤ offset) (hend : offset < byteSize front + d.utf8Size)
      (hfront : ThinnedFrom front before) (hchar : StandsFor d c) (hback : ThinnedFrom back after) :
      Origin t s offset (byteSize before)
  | theEnd {offset : Nat} (hend : byteSize t ≤ offset) : Origin t s offset (byteSize s)

/-- Every offset has its place, and a place on the same line. -/
theorem KeepsLines.exists_origin {t s : Text} (h : KeepsLines t s) (offset : Nat) :
    ∃ place, Origin t s offset place ∧
      (Position.ofOffset t offset).line = (Position.ofOffset s place).line := by
  rcases Nat.lt_or_ge offset (byteSize t) with hlt | hge
  · obtain ⟨front, d, back, rfl, hbegin, hend⟩ := exists_char_at hlt
    obtain ⟨before, c, after, rfl, hfront, hchar, hback⟩ := h.exists_cut
    refine ⟨byteSize before, .char rfl rfl hbegin hend hfront.thinned hchar hback.thinned, ?_⟩
    rw [Position.line_ofOffset_append_cons hbegin hend, hfront.lineFeeds_eq,
      Position.line_ofOffset_of_reachesOver (reachesOver_byteSize before)]
  · refine ⟨byteSize s, .theEnd hge, ?_⟩
    rw [Position.line_ofOffset_of_byteSize_le hge,
      Position.line_ofOffset_of_byteSize_le (Nat.le_refl _), h.lineFeeds_eq]

/-- Comments and trailing commas are taken out line by line: the result has as many line feeds as
the text, and every line of it comes from the line of the same number. A reader that stops at any
offset of the result therefore names the line of the text in which the character stands that it has
met. -/
theorem relax_line_for_line (s : Text) :
    lineFeeds (relax s) = lineFeeds s ∧
    List.Forall₂ ThinnedFrom (lines (relax s)) (lines s) ∧
    ∀ offset, ∃ place, Origin (relax s) s offset place ∧
      (Position.ofOffset (relax s) offset).line = (Position.ofOffset s place).line := by
  have hkeeps := keepsLines_relax s
  exact ⟨hkeeps.lineFeeds_eq, hkeeps.forall₂_lines, hkeeps.exists_origin⟩

/-- A trailing comma two lines above its bracket, with a comment over both lines between them. -/
example : lines (relax "[ // one\n[1, /* 2,\n*/\n] ]".toList) =
    ["[ ".toList, "[1  ".toList, [], "] ]".toList] := by
  decide +kernel

end FencedCode.Json
