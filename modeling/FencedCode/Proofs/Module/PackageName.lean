import FencedCode.Module.PackageName
import FencedCode.Proofs.Text.Cut

/-!
# The package in a module name

A package is named by one segment, or by two when the first is a scope. A module name that has no
more segments names the package itself, and otherwise a path inside it. Declarations of a package
are published in the scope `types`, where the scope of the package becomes part of the name.
-/

namespace FencedCode.PackageName

/-- How many segments of the name belong to the package. -/
def width (name : Text) : Nat := if name.head? = some '@' then 2 else 1

theorem width_pos (name : Text) : 0 < width name := by
  unfold width
  split <;> decide

/-- The module name begins with the package, and goes on with a path or ends there. -/
inductive Begins (name : Text) : Text → Option Text → Prop
  | whole (h : name.count '/' < width name) : Begins name name none
  | inside {package path : Text} (hname : name = package ++ '/' :: path)
      (h : package.count '/' + 1 = width name) : Begins name package (some path)

theorem begins_split (name : Text) : Begins name (split name).1 (split name).2 := by
  unfold split
  cases hfirst : Text.splitFirst '/' name with
  | none =>
    have hcount := List.count_eq_zero.mpr (Text.splitFirst_eq_none_iff.mp hfirst)
    exact .whole (hcount ▸ width_pos name)
  | some pieces =>
    obtain ⟨first, rest⟩ := pieces
    obtain ⟨hname, hmem⟩ := Text.splitFirst_eq_some_iff.mp hfirst
    have hcount := List.count_eq_zero.mpr hmem
    by_cases hscope : name.head? = some '@'
    · have hwidth : width name = 2 := if_pos hscope
      simp only [if_pos hscope]
      cases hsecond : Text.splitFirst '/' rest with
      | none =>
        have hrest := List.count_eq_zero.mpr (Text.splitFirst_eq_none_iff.mp hsecond)
        refine .whole ?_
        rw [hwidth, hname, List.count_append, hcount, List.count_cons_self, hrest]
        decide
      | some pieces =>
        obtain ⟨second, path⟩ := pieces
        obtain ⟨rfl, hmem'⟩ := Text.splitFirst_eq_some_iff.mp hsecond
        refine .inside (by rw [hname, List.append_assoc, List.cons_append]) ?_
        rw [hwidth, List.count_append, hcount, List.count_cons_self, List.count_eq_zero.mpr hmem']
    · have hwidth : width name = 1 := if_neg hscope
      simp only [if_neg hscope]
      exact .inside hname (by rw [hwidth, hcount])

/-- A module name names a package itself exactly when it has no more segments than a package. -/
theorem snd_split_eq_none_iff {name : Text} :
    (split name).2 = none ↔ name.count '/' < width name := by
  have hbegins := begins_split name
  generalize (split name).1 = package at hbegins
  generalize (split name).2 = inner at hbegins
  cases hbegins with
  | whole h => exact iff_of_true rfl h
  | inside hname h =>
    refine iff_of_false (Option.some_ne_none _) (Nat.not_lt.mpr ?_)
    rw [← h, hname, List.count_append, List.count_cons_self]
    omega

/-- The package that holds the declarations of a package: in the scope `types`, the name of an
unscoped package, and of a scoped one the scope and the name with two underscores between them. -/
inductive Declares : Text → Text → Prop
  | scoped {scope inScope : Text} (h : '/' ∉ scope) :
      Declares ('@' :: scope ++ '/' :: inScope)
        ("@types/".toList ++ scope ++ "__".toList ++ inScope)
  | scope {scope : Text} (h : '/' ∉ scope) : Declares ('@' :: scope) ("@types/".toList ++ scope)
  | unscoped {package : Text} (h : package.head? ≠ some '@') :
      Declares package ("@types/".toList ++ package)

theorem declarations_cons (inScope : Text) : declarations ('@' :: inScope) =
    "@types/".toList ++ Text.replaceFirst '/' "__".toList inScope := rfl

theorem declarations_of_head?_ne {package : Text} (h : package.head? ≠ some '@') :
    declarations package = "@types/".toList ++ package := by
  unfold declarations
  split
  · exact absurd rfl h
  · rfl

theorem declares_declarations (package : Text) : Declares package (declarations package) := by
  by_cases hhead : package.head? = some '@'
  · obtain ⟨inScope, rfl⟩ := List.head?_eq_some_iff.mp hhead
    rw [declarations_cons]
    cases hcut : Text.splitFirst '/' inScope with
    | none =>
      have hmem := Text.splitFirst_eq_none_iff.mp hcut
      rw [Text.replaceFirst_of_notMem hmem]
      exact Declares.scope hmem
    | some pieces =>
      obtain ⟨scope, rest⟩ := pieces
      obtain ⟨rfl, hmem⟩ := Text.splitFirst_eq_some_iff.mp hcut
      rw [Text.replaceFirst_append_cons hmem, ← List.append_assoc, ← List.append_assoc]
      exact Declares.scoped hmem
  · rw [declarations_of_head?_ne hhead]
    exact Declares.unscoped hhead

end FencedCode.PackageName
