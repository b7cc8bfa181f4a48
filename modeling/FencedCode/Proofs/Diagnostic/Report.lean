import Mathlib.Algebra.GroupWithZero.Nat
import FencedCode.Diagnostic.Report
import FencedCode.Proofs.Text.Rows

/-!
# Rows of a short report

A short report has an entry for each failure. The entry begins with a heading, which names the
document and the place in it, and goes on with the message. So it takes as many rows as the message
has lines, and the entries keep to one row each exactly when every message has one line.
-/

namespace FencedCode

open Text

namespace Failure

variable {f : Failure}

/-- What stands in front of the message: the document and the place in it. -/
def heading (f : Failure) : Text :=
  match f.location with
  | .at line column =>
    f.document ++ ':' :: ofNat line ++ ':' :: ofNat column ++ " — ".toList
  | .block startLine => f.document ++ ':' :: ofNat startLine ++ ": ".toList

theorem shown_eq (f : Failure) : f.shown = f.heading ++ f.message := by
  unfold shown heading
  cases f.location <;> rfl

theorem notMem_heading (h : '\n' ∉ f.document) : '\n' ∉ f.heading := by
  have hnumber := notMem_ofNat (c := '\n') (by decide)
  unfold heading
  cases f.location <;> simp [h, hnumber]

end Failure

namespace Report

variable {f : Failure} {failures : List Failure}

/-- The entry of a failure in a short report. -/
def shortEntry (f : Failure) : Text := f.shown ++ ['\n']

/-- There is one for all failures, whatever becomes of sums that do not fit. -/
theorem ofFailures?_short (overflow : Overflow) (failures : List Failure) :
    ofFailures? overflow .short failures = some (failures.flatMap shortEntry) := rfl

theorem lineFeeds_shortEntry (h : '\n' ∉ f.document) :
    lineFeeds (shortEntry f) = lineCount f.message := by
  rw [shortEntry, f.shown_eq, List.append_assoc, lineFeeds_append,
    lineFeeds_of_notMem (Failure.notMem_heading h), Nat.zero_add, lineFeeds_append, lineCount]
  rfl

theorem terminated_flatMap_shortEntry (failures : List Failure) :
    Terminated (failures.flatMap shortEntry) := by
  induction failures with
  | nil => exact terminated_nil
  | cons f rest ih =>
    rw [List.flatMap_cons]
    exact (terminated_append_singleton f.shown).append ih

theorem lineFeeds_flatMap_shortEntry (h : ∀ f ∈ failures, '\n' ∉ f.document) :
    lineFeeds (failures.flatMap shortEntry) =
      (failures.map fun f ↦ lineCount f.message).sum := by
  induction failures with
  | nil => rfl
  | cons f rest ih =>
    obtain ⟨hf, hrest⟩ := List.forall_mem_cons.mp h
    rw [List.flatMap_cons, lineFeeds_append, lineFeeds_shortEntry hf, ih hrest, List.map_cons,
      List.sum_cons]

/-- A short report has the lines of all messages. -/
theorem length_rows_short (h : ∀ f ∈ failures, '\n' ∉ f.document) :
    (rows (failures.flatMap shortEntry)).length =
      (failures.map fun f ↦ lineCount f.message).sum := by
  rw [length_rows_of_terminated (terminated_flatMap_shortEntry failures),
    lineFeeds_flatMap_shortEntry h]

/-- The entry of a failure begins behind the lines of the messages in front of it. -/
theorem exists_row_short (h : ∀ f ∈ failures, '\n' ∉ f.document) {i : Nat}
    (hf : failures[i]? = some f) :
    ∃ row, (rows (failures.flatMap shortEntry))[
        ((failures.take i).map fun f ↦ lineCount f.message).sum]? = some row ∧
      f.heading <+: row := by
  obtain ⟨hi, rfl⟩ := List.getElem?_eq_some_iff.mp hf
  have hcut : failures.flatMap shortEntry = (failures.take i).flatMap shortEntry ++
      (shortEntry failures[i] ++ (failures.drop (i + 1)).flatMap shortEntry) := by
    rw [← List.flatMap_cons, ← List.flatMap_append, List.getElem_cons_drop, List.take_append_drop]
  have hfront : ∀ f ∈ failures.take i, '\n' ∉ f.document := fun f hmem ↦
    h f (List.mem_of_mem_take hmem)
  have hmessage : '\n' ∈ failures[i].message ++ ['\n'] := by simp
  obtain ⟨row, rest, hrows, hprefix⟩ := exists_prefix_rows_append
    (Failure.notMem_heading (h _ (List.getElem_mem hi))) hmessage
  rw [← List.append_assoc, ← Failure.shown_eq] at hrows
  have hfirst : (rows (shortEntry failures[i]))[0]? = some row := by
    rw [shortEntry, hrows]
    rfl
  refine ⟨row, ?_, hprefix⟩
  rw [← lineFeeds_flatMap_shortEntry hfront, hcut]
  exact getElem?_rows_of_middle (fun _ ↦ terminated_flatMap_shortEntry _)
    (fun _ ↦ terminated_append_singleton _) hfirst

/-- The report has one row for each failure, which begins with the heading of the failure. -/
def HasRowEach (report : Text) (failures : List Failure) : Prop :=
  (rows report).length = failures.length ∧ ∀ (i : Nat) (f : Failure), failures[i]? = some f →
    ∃ row, (rows report)[i]? = some row ∧ f.heading <+: row

theorem sum_lineCount_messages (failures : List Failure) :
    (failures.map fun f ↦ lineCount f.message).sum =
      (failures.map fun f ↦ lineFeeds f.message).sum + failures.length := by
  induction failures with
  | nil => rfl
  | cons f rest ih =>
    rw [List.map_cons, List.sum_cons, List.map_cons, List.sum_cons, List.length_cons, ih, lineCount]
    omega

theorem sum_lineCount_messages_eq_length_iff :
    (failures.map fun f ↦ lineCount f.message).sum = failures.length ↔
      ∀ f ∈ failures, lineCount f.message = 1 := by
  rw [sum_lineCount_messages, Nat.add_eq_right, List.sum_eq_zero_iff_forall_eq_nat,
    List.forall_mem_map]
  exact forall₂_congr fun f _ ↦ Nat.add_eq_right.symm

theorem hasRowEach_short_iff (h : ∀ f ∈ failures, '\n' ∉ f.document) :
    HasRowEach (failures.flatMap shortEntry) failures ↔
      ∀ f ∈ failures, lineCount f.message = 1 := by
  rw [← sum_lineCount_messages_eq_length_iff, HasRowEach, length_rows_short h]
  refine and_iff_left_of_imp fun hsum i f hf ↦ ?_
  have hfront : ((failures.take i).map fun f ↦ lineCount f.message).sum = i := by
    have hmessages := sum_lineCount_messages_eq_length_iff.mp hsum
    rw [sum_lineCount_messages_eq_length_iff.mpr fun f hmem ↦
      hmessages f (List.mem_of_mem_take hmem), List.length_take]
    exact Nat.min_eq_left (Nat.le_of_lt (List.getElem?_eq_some_iff.mp hf).1)
  have hrow := exists_row_short h hf
  rwa [hfront] at hrow

end Report

end FencedCode
