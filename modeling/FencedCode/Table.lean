import FencedCode.Text.Basic

/-!
# Tables in order of insertion

A table holds one value per key. A new key goes to the end, and a key that is present keeps its
place when its value is replaced. That no key occurs twice is part of the type.
-/

namespace FencedCode

/-- A finite map that remembers the order in which its keys were first inserted. -/
structure Table (κ α : Type) where
  entries : List (κ × α)
  nodup_keys : (entries.map Prod.fst).Nodup
deriving DecidableEq

namespace Table

variable {κ α β : Type}

def empty : Table κ α := ⟨[], by simp⟩

def keys (t : Table κ α) : List κ := t.entries.map Prod.fst

def values (t : Table κ α) : List α := t.entries.map Prod.snd

def size (t : Table κ α) : Nat := t.entries.length

/-- The same keys with new values. -/
def map (f : κ → α → β) (t : Table κ α) : Table κ β where
  entries := t.entries.map fun (k, a) ↦ (k, f k a)
  nodup_keys := by simpa [Function.comp_def] using t.nodup_keys

@[simp] theorem keys_map (f : κ → α → β) (t : Table κ α) : (t.map f).keys = t.keys := by
  simp [keys, map, Function.comp_def]

variable [DecidableEq κ]

/-- The value of the first entry with the key. -/
def lookup (k : κ) : List (κ × α) → Option α
  | [] => none
  | (k', a) :: rest => if k' = k then some a else lookup k rest

/-- The entries with the value of `k` replaced in place, or with a new last entry. -/
def insertEntry (k : κ) (a : α) : List (κ × α) → List (κ × α)
  | [] => [(k, a)]
  | (k', b) :: rest => if k' = k then (k, a) :: rest else (k', b) :: insertEntry k a rest

theorem map_fst_insertEntry (k : κ) (a : α) (entries : List (κ × α)) :
    (insertEntry k a entries).map Prod.fst =
      if k ∈ entries.map Prod.fst then entries.map Prod.fst else entries.map Prod.fst ++ [k] := by
  induction entries with
  | nil => simp [insertEntry]
  | cons e rest ih =>
    obtain ⟨k', b⟩ := e
    by_cases h : k' = k
    · simp [insertEntry, h]
    · simp only [insertEntry, h, if_false, List.map_cons, ih, List.mem_cons, Ne.symm h, false_or]
      split <;> simp

def get? (t : Table κ α) (k : κ) : Option α := lookup k t.entries

def contains (t : Table κ α) (k : κ) : Bool := (t.get? k).isSome

/-- The table with `a` as the value of `k`. -/
def insert (t : Table κ α) (k : κ) (a : α) : Table κ α where
  entries := insertEntry k a t.entries
  nodup_keys := by
    rw [map_fst_insertEntry]
    split
    · exact t.nodup_keys
    · rename_i h
      rw [List.nodup_append]
      refine ⟨t.nodup_keys, by simp, fun x hx y hy ↦ ?_⟩
      rintro rfl
      simp_all

theorem keys_insert (t : Table κ α) (k : κ) (a : α) :
    (t.insert k a).keys = if k ∈ t.keys then t.keys else t.keys ++ [k] :=
  map_fst_insertEntry k a t.entries

theorem lookup_insertEntry (k j : κ) (a : α) (entries : List (κ × α)) :
    lookup j (insertEntry k a entries) = if k = j then some a else lookup j entries := by
  induction entries with
  | nil => simp [insertEntry, lookup]
  | cons e rest ih =>
    obtain ⟨k', b⟩ := e
    by_cases h : k' = k
    · subst h
      by_cases hj : k' = j <;> simp [insertEntry, lookup, hj]
    · by_cases hk : k' = j
      · subst hk
        simp [insertEntry, lookup, h, Ne.symm h]
      · simp [insertEntry, lookup, h, hk, ih]

@[simp] theorem get?_insert (t : Table κ α) (k j : κ) (a : α) :
    (t.insert k a).get? j = if k = j then some a else t.get? j :=
  lookup_insertEntry k j a t.entries

theorem lookup_isSome_iff (k : κ) (entries : List (κ × α)) :
    (lookup k entries).isSome ↔ k ∈ entries.map Prod.fst := by
  induction entries with
  | nil => simp [lookup]
  | cons e rest ih =>
    obtain ⟨k', b⟩ := e
    by_cases h : k' = k
    · simp [lookup, h]
    · simp only [lookup, h, if_false, ih, List.map_cons, List.mem_cons, Ne.symm h, false_or]

theorem contains_iff (t : Table κ α) (k : κ) : t.contains k ↔ k ∈ t.keys :=
  lookup_isSome_iff k t.entries

/-- The pairs inserted in order. -/
def ofList (pairs : List (κ × α)) : Table κ α :=
  pairs.foldl (fun t (k, a) ↦ t.insert k a) empty

/-- The table without the key. -/
def erase (t : Table κ α) (k : κ) : Table κ α where
  entries := t.entries.filter fun (j, _) ↦ j ≠ k
  nodup_keys := t.nodup_keys.sublist (List.Sublist.map _ List.filter_sublist)

end Table

end FencedCode
