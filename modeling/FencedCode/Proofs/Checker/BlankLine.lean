import FencedCode.Proofs.Checker.Emission

/-!
# Blank lines of an emitted code

The line checker drops all blank rows, and only the empty ones are filled before. So a line of white
space with a line feed behind it is missing from the emitted code, and the lines below it move up.
Every other line comes out without its annotations and placeholders, in its order. White space
behind the last line feed leaves an empty last line.
-/

namespace FencedCode

namespace LineSyntax

open Text

/-- The line is blank, but it is not filled: it holds more than the carriage return of its line
break. -/
def IsSpaceLine (line : Text) : Prop := allBlank line ∧ line ≠ [] ∧ line ≠ ['\r']

instance (line : Text) : Decidable (IsSpaceLine line) :=
  inferInstanceAs (Decidable (_ ∧ _ ∧ _))

/-- A line without its annotations and placeholders. -/
def shownLine (line : Text) : Text := clearPlaceholders (withoutAnnotations line)

theorem shownLine_sublist (line : Text) : (shownLine line).Sublist line := by
  have hcleared : (shownLine line).Sublist (withoutAnnotations line) := by
    rw [shownLine, clearPlaceholders, replaceAll_nil_eq (by decide)]
    exact replaceFrom_nil_sublist 0 _
  exact hcleared.trans (foldl_replaceAll_sublist (fun a ha ↦ (annotations_spec a ha).1) line)

theorem notMem_shownLine {line : Text} (h : '\n' ∉ line) : '\n' ∉ shownLine line := fun hmem ↦
  h ((shownLine_sublist line).subset hmem)

theorem allBlank_shownLine {line : Text} (h : allBlank line) : allBlank (shownLine line) :=
  allBlank_iff.mpr fun c hc ↦ allBlank_iff.mp h c ((shownLine_sublist line).subset hc)

/-! ## Lines of the emitted code -/

theorem fillRow_line_cases {line : Text} (h : '\n' ∉ line) :
    line = [] ∨ line = ['\r'] ∨ (line ≠ [] ∧ line ≠ ['\r'] ∧ fillRow line = line) := by
  by_cases hnil : line = []
  · exact .inl hnil
  by_cases hreturn : line = ['\r']
  · exact .inr (.inl hreturn)
  refine .inr (.inr ⟨hnil, hreturn, ?_⟩)
  rw [fillRow_eq hnil, if_neg]
  rintro (rfl | rfl | hreturn')
  · exact h List.mem_cons_self
  · exact h (List.mem_cons_of_mem _ List.mem_cons_self)
  · exact hreturn hreturn'

/-- Of the filled lines, those of white space are blank. -/
theorem allBlank_fillRow_iff {line : Text} (h : '\n' ∉ line) :
    allBlank (fillRow line) ↔ IsSpaceLine line := by
  rcases fillRow_line_cases h with rfl | rfl | ⟨hnil, hreturn, hfill⟩
  · decide
  · decide
  · rw [hfill, IsSpaceLine]
    exact ⟨fun hblank ↦ ⟨hblank, hnil, hreturn⟩, fun hspace ↦ hspace.1⟩

theorem clearPlaceholders_withoutAnnotations_fillRow {line : Text} (h : '\n' ∉ line) :
    clearPlaceholders (withoutAnnotations (fillRow line)) = shownLine line := by
  rcases fillRow_line_cases h with rfl | rfl | ⟨-, -, hfill⟩
  · decide
  · decide
  · rw [hfill, shownLine]

/-- A last line that is not empty. -/
theorem clearPlaceholders_emittedRow_last {line : Text} (h : '\n' ∉ line) :
    clearPlaceholders (emittedRow (fillRow line)) =
      if IsSpaceLine line then [] else shownLine line := by
  simp only [emittedRow, allBlank_fillRow_iff h]
  split
  · rfl
  · exact clearPlaceholders_withoutAnnotations_fillRow h

/-- A line with a line feed behind it. -/
theorem clearPlaceholders_emittedRow_terminated {line : Text} (h : '\n' ∉ line) :
    clearPlaceholders (emittedRow (fillRow (line ++ ['\n']))) =
      if IsSpaceLine line then [] else shownLine line ++ ['\n'] := by
  simp only [fillRow_append_singleton h, emittedRow_append_singleton, allBlank_fillRow_iff h]
  split
  · rfl
  · rw [clearPlaceholders_append_cons, clearPlaceholders_withoutAnnotations_fillRow h]
    rfl

/-- The lines in front of the last line feed are emitted apart from those of white space, and what
is behind it is emitted apart from white space. -/
theorem exists_lines_emitted (code : Text) :
    ∃ front final, lines code = front ++ [final] ∧
      lines (clearPlaceholders (emitted (fillEmptyLines code))) =
        (front.filter fun line ↦ ¬ IsSpaceLine line).map shownLine ++
          [if IsSpaceLine final then [] else shownLine final] := by
  rw [clearPlaceholders_emitted_fillEmptyLines]
  induction code using row_induction with
  | nil => exact ⟨[], [], rfl, by decide⟩
  | last row hne hnot =>
    have hout : '\n' ∉ if IsSpaceLine row then [] else shownLine row := by
      split
      · exact List.not_mem_nil
      · exact notMem_shownLine hnot
    refine ⟨[], row, lines_of_notMem hnot, ?_⟩
    rw [rows_of_notMem hne hnot, List.flatMap_singleton, clearPlaceholders_emittedRow_last hnot,
      lines_of_notMem hout]
    rfl
  | cons body rest hbody ih =>
    obtain ⟨front, final, hlines, hout⟩ := ih
    refine ⟨body :: front, final, by rw [lines_body_append hbody, hlines, List.cons_append], ?_⟩
    rw [rows_body_append hbody, List.flatMap_cons, clearPlaceholders_emittedRow_terminated hbody]
    by_cases hspace : IsSpaceLine body
    · rw [if_pos hspace, List.nil_append, hout, List.filter_cons_of_neg (by simpa using hspace)]
    · rw [if_neg hspace, List.append_assoc, List.singleton_append,
        lines_body_append (notMem_shownLine hbody), hout,
        List.filter_cons_of_pos (by simpa using hspace), List.map_cons, List.cons_append]

/-- There are as many lines as in the code, and those that are blank in the code are blank. -/
structure KeepsBlankLines (code output : Text) : Prop where
  length_eq : (lines output).length = (lines code).length
  blank : ∀ (i : Nat) (line : Text), (lines code)[i]? = some line → allBlank line →
    ∃ shown, (lines output)[i]? = some shown ∧ allBlank shown

theorem keepsBlankLines_iff {code output final : Text} {front : List Text}
    (hcode : lines code = front ++ [final])
    (houtput : lines output = (front.filter fun line ↦ ¬ IsSpaceLine line).map shownLine ++
      [if IsSpaceLine final then [] else shownLine final]) :
    KeepsBlankLines code output ↔ ∀ line ∈ front, ¬ IsSpaceLine line := by
  constructor
  · intro h
    have hlength := h.length_eq
    rw [hcode, houtput, List.length_append, List.length_append, List.length_map,
      List.length_singleton, List.length_singleton, Nat.add_right_cancel_iff] at hlength
    intro line hline
    exact of_decide_eq_true (List.length_filter_eq_length_iff.mp hlength line hline)
  · intro h
    have hmap : lines output =
        (lines code).map fun line ↦ if IsSpaceLine line then [] else shownLine line := by
      have hfront : front.filter (fun line ↦ ¬ IsSpaceLine line) = front :=
        List.filter_eq_self.mpr fun line hline ↦ decide_eq_true (h line hline)
      rw [houtput, hcode, hfront, List.map_append, List.map_singleton]
      congr 1
      exact List.map_congr_left fun line hline ↦ (if_neg (h line hline)).symm
    refine ⟨by rw [hmap, List.length_map], fun i line hline hblank ↦ ?_⟩
    refine ⟨_, by rw [hmap, List.getElem?_map, hline, Option.map_some], ?_⟩
    split
    · rfl
    · exact allBlank_shownLine hblank

end LineSyntax

namespace LineChecker

open Compiler LineSyntax

/-- A request emits a file from the code that is the last one at its path: the lines of white space
are missing, unless they are at the end, and the others are shown. So the blank lines of the code
are kept, and its number of lines, exactly when no line of white space has a line feed behind it.
The request can only fail because of an import that is redirected to a target for which nothing is
found. -/
theorem compile_keepsBlankLines_iff (fs : FileSystem) (c : Compiler State) (files : FileSet) :
    (∃ compiled c', run (compile lineChecker fs files) c = (.ok compiled, c') ∧
      compiled.keys = files.keys ∧
      ∀ key ∈ files.keys, ∀ last, files.LastAt key last →
        ∃ result front final, compiled.get? key = some result ∧
          Text.lines last.code = front ++ [final] ∧
          Text.lines result.code =
            (front.filter fun line ↦ ¬ IsSpaceLine line).map shownLine ++
              [if IsSpaceLine final then [] else shownLine final] ∧
          (KeepsBlankLines last.code result.code ↔ ∀ line ∈ front, ¬ IsSpaceLine line)) ∨
    ∃ e c', run (compile lineChecker fs files) c = (.error e, c') ∧
      ∃ key ∈ files.keys, ∃ last, files.LastAt key last ∧
        FailsToImport fs (prepare files c.workspace) key (Text.rows last.code) e := by
  refine (run_compile_cases fs c files).imp_left ?_
  rintro ⟨compiled, c', hrun, hkeys, hcodes⟩
  refine ⟨compiled, c', hrun, hkeys, fun key hkey last hlast ↦ ?_⟩
  obtain ⟨result, hresult, hcode⟩ := hcodes key hkey last hlast
  obtain ⟨front, final, hlines, hout⟩ := exists_lines_emitted last.code
  rw [← hcode] at hout
  exact ⟨result, front, final, hresult, hlines, hout, keepsBlankLines_iff hlines hout⟩

/-- The white space is the last line, so that nothing moves up. -/
theorem compile_keepsBlankLines_of_final_space :
    ∃ compiled c' result, run (compile lineChecker .empty (Table.ofList [("/d/index.ts".toList,
        ⟨"/d/index.ts".toList, "let a: string\n\nlet b\n  ".toList, false⟩)]))
        ⟨Workspace.ofOptions .empty Table.empty, State.empty⟩ = (.ok compiled, c') ∧
      compiled.get? "/d/index.ts".toList = some result ∧
      KeepsBlankLines "let a: string\n\nlet b\n  ".toList result.code := by
  rcases compile_keepsBlankLines_iff .empty ⟨Workspace.ofOptions .empty Table.empty, State.empty⟩
      (Table.ofList [("/d/index.ts".toList,
        ⟨"/d/index.ts".toList, "let a: string\n\nlet b\n  ".toList, false⟩)]) with
    ⟨compiled, c', hrun, -, hfiles⟩ | ⟨e, c', -, _, -, _, -, _, -, _, redirect, -, hredirect, -⟩
  · obtain ⟨result, front, final, hresult, hlines, -, hkeeps⟩ := hfiles _ List.mem_cons_self
      ⟨"/d/index.ts".toList, "let a: string\n\nlet b\n  ".toList, false⟩
      ⟨[], _, [], rfl, rfl, fun _ h ↦ absurd h List.not_mem_nil⟩
    have hfront : front = (Text.lines "let a: string\n\nlet b\n  ".toList).dropLast := by
      rw [hlines, List.dropLast_concat]
    refine ⟨compiled, c', result, hrun, hresult, hkeeps.mpr ?_⟩
    rw [hfront]
    decide
  · exact absurd hredirect (Option.some_ne_none redirect).symm

/-- The second line is white space, and the third one takes its place. -/
theorem compile_drops_space_line :
    ¬ placeholder <:+: "let a = 1\n  \nlet b = 2\n".toList ∧
    (Text.lines "let a = 1\n  \nlet b = 2\n".toList)[1]? = some "  ".toList ∧
    ∃ compiled c' result, run (compile lineChecker .empty (Table.ofList [("/d/index.ts".toList,
        ⟨"/d/index.ts".toList, "let a = 1\n  \nlet b = 2\n".toList, false⟩)]))
        ⟨Workspace.ofOptions .empty Table.empty, State.empty⟩ = (.ok compiled, c') ∧
      compiled.get? "/d/index.ts".toList = some result ∧
      (Text.lines result.code)[1]? = some "let b = 2".toList ∧
      (Text.lines result.code).length ≠
        (Text.lines "let a = 1\n  \nlet b = 2\n".toList).length := by
  exact ⟨by decide, by decide, Table.ofList [("/d/index.ts".toList,
    ⟨"/d/index.ts".toList, "let a = 1\nlet b = 2\n".toList, false, []⟩)], _, _,
    run_eq_of_fst_eq (by decide +kernel), rfl, by decide, by decide⟩

end LineChecker

end FencedCode
