import FencedCode.Table
import Mathlib.Algebra.GroupWithZero.Nat
import Mathlib.Data.List.Induction

/-!
# Tables made from lists

Inserting pairs one after another leaves every key at its first place and with its last value.
-/

namespace FencedCode.Table

variable {κ α : Type} [DecidableEq κ]

theorem lookup_eq_some_iff {k : κ} {a : α} {entries : List (κ × α)}
    (h : (entries.map Prod.fst).Nodup) : lookup k entries = some a ↔ (k, a) ∈ entries := by
  induction entries with
  | nil => simp [lookup]
  | cons e rest ih =>
    obtain ⟨j, b⟩ := e
    obtain ⟨hfresh, hrest⟩ := List.nodup_cons.mp h
    by_cases hj : j = k
    · subst hj
      have hnot : (j, a) ∉ rest := fun hmem ↦
        hfresh (List.mem_map.mpr ⟨_, hmem, rfl⟩)
      simp [lookup, hnot, eq_comm]
    · rw [lookup, if_neg hj, ih hrest, List.mem_cons, Prod.mk.injEq]
      simp [Ne.symm hj]

theorem get?_eq_some_iff {t : Table κ α} {k : κ} {a : α} :
    t.get? k = some a ↔ (k, a) ∈ t.entries :=
  lookup_eq_some_iff t.nodup_keys

theorem insertEntry_of_notMem {k : κ} {entries : List (κ × α)} (h : k ∉ entries.map Prod.fst)
    (a : α) : insertEntry k a entries = entries ++ [(k, a)] := by
  induction entries with
  | nil => rfl
  | cons e rest ih =>
    obtain ⟨j, b⟩ := e
    have hj := List.ne_of_not_mem_cons h
    have hrest := List.not_mem_of_not_mem_cons h
    rw [insertEntry, if_neg (Ne.symm hj), ih hrest, List.cons_append]

/-- A measure of the entries grows by no more than the measure of the new entry. -/
theorem sum_insertEntry_le (f : κ × α → Nat) (k : κ) (a : α) (entries : List (κ × α)) :
    ((insertEntry k a entries).map f).sum ≤ (entries.map f).sum + f (k, a) := by
  induction entries with
  | nil => simp [insertEntry]
  | cons e rest ih =>
    obtain ⟨j, b⟩ := e
    by_cases hj : j = k
    · simp only [insertEntry, if_pos hj, List.map_cons, List.sum_cons]
      omega
    · simp only [insertEntry, if_neg hj, List.map_cons, List.sum_cons]
      omega

theorem mem_insertEntry {k : κ} {a : α} {entries : List (κ × α)} {e : κ × α}
    (h : e ∈ insertEntry k a entries) : e = (k, a) ∨ e ∈ entries := by
  induction entries with
  | nil => exact .inl (List.mem_singleton.mp h)
  | cons d rest ih =>
    obtain ⟨j, b⟩ := d
    rw [insertEntry] at h
    split at h
    · exact (List.mem_cons.mp h).imp_right (List.mem_cons_of_mem _)
    · rcases List.mem_cons.mp h with heq | hrest
      · exact .inr (heq ▸ List.mem_cons_self)
      · exact (ih hrest).imp_right (List.mem_cons_of_mem _)

@[simp] theorem ofList_nil : ofList ([] : List (κ × α)) = empty := rfl

theorem ofList_append_singleton (pairs : List (κ × α)) (k : κ) (a : α) :
    ofList (pairs ++ [(k, a)]) = (ofList pairs).insert k a := by
  rw [ofList, List.foldl_append]
  rfl

/-- Every key stands where it was first inserted. -/
theorem keys_ofList [BEq κ] [LawfulBEq κ] (pairs : List (κ × α)) :
    (ofList pairs).keys = (pairs.map Prod.fst).eraseDups := by
  induction pairs using List.reverseRecOn with
  | nil => rfl
  | append_singleton pairs e ih =>
    obtain ⟨k, a⟩ := e
    rw [ofList_append_singleton, keys_insert, ih, List.map_append, List.eraseDups_append]
    by_cases hk : k ∈ pairs.map Prod.fst
    · rw [if_pos (List.mem_eraseDups.mpr hk)]
      simp [List.removeAll, hk]
    · rw [if_neg (mt List.mem_eraseDups.mp hk)]
      simp [List.removeAll, hk, List.eraseDups_cons]

theorem get?_foldl_insert {k : κ} {pairs : List (κ × α)} (h : k ∉ pairs.map Prod.fst)
    (t : Table κ α) : (pairs.foldl (fun t (k, a) ↦ t.insert k a) t).get? k = t.get? k := by
  induction pairs generalizing t with
  | nil => rfl
  | cons e rest ih =>
    obtain ⟨j, b⟩ := e
    have hj : k ≠ j := List.ne_of_not_mem_cons h
    rw [List.foldl_cons, ih (List.not_mem_of_not_mem_cons h), get?_insert, if_neg (Ne.symm hj)]

/-- Every key has the value that was inserted last. -/
theorem get?_ofList_append_cons {k : κ} {after : List (κ × α)} (h : k ∉ after.map Prod.fst)
    (before : List (κ × α)) (a : α) : (ofList (before ++ (k, a) :: after)).get? k = some a := by
  rw [ofList, List.foldl_append, List.foldl_cons, get?_foldl_insert h, get?_insert, if_pos rfl]

theorem exists_last_of_mem {k : κ} {pairs : List (κ × α)} (h : k ∈ pairs.map Prod.fst) :
    ∃ before a after, pairs = before ++ (k, a) :: after ∧ k ∉ after.map Prod.fst := by
  induction pairs with
  | nil => simp at h
  | cons e rest ih =>
    by_cases hrest : k ∈ rest.map Prod.fst
    · obtain ⟨before, a, after, rfl, hafter⟩ := ih hrest
      exact ⟨e :: before, a, after, rfl, hafter⟩
    · obtain ⟨j, b⟩ := e
      obtain rfl : k = j := (List.mem_cons.mp h).resolve_right hrest
      exact ⟨[], b, rest, rfl, hrest⟩

theorem get?_ofList_eq_some_iff {k : κ} {a : α} {pairs : List (κ × α)} :
    (ofList pairs).get? k = some a ↔
      ∃ before after, pairs = before ++ (k, a) :: after ∧ k ∉ after.map Prod.fst := by
  constructor
  · intro h
    have hkey : k ∈ (ofList pairs).keys := (contains_iff _ k).mp (by simp [contains, h])
    rw [keys_ofList, List.mem_eraseDups] at hkey
    obtain ⟨before, b, after, rfl, hafter⟩ := exists_last_of_mem hkey
    rw [get?_ofList_append_cons hafter, Option.some_inj] at h
    exact ⟨before, after, by rw [h], hafter⟩
  · rintro ⟨before, after, rfl, hafter⟩
    exact get?_ofList_append_cons hafter before a

theorem get?_ofList (pairs : List (κ × α)) (k : κ) :
    (ofList pairs).get? k = (pairs.reverse.find? fun e ↦ e.1 = k).map Prod.snd := by
  induction pairs using List.reverseRecOn with
  | nil => rfl
  | append_singleton pairs e ih =>
    obtain ⟨j, a⟩ := e
    rw [ofList_append_singleton, get?_insert, List.reverse_append, List.reverse_singleton,
      List.singleton_append, ih]
    by_cases hj : j = k
    · rw [if_pos hj, List.find?_cons_of_pos (by simpa using hj), Option.map_some]
    · rw [if_neg hj, List.find?_cons_of_neg (by simpa using hj)]

theorem get?_erase (t : Table κ α) (k j : κ) :
    (t.erase k).get? j = if k = j then none else t.get? j := by
  have hlookup : ∀ entries : List (κ × α), lookup j (entries.filter fun e ↦ e.1 ≠ k) =
      if k = j then none else lookup j entries := by
    intro entries
    induction entries with
    | nil => exact (ite_self _).symm
    | cons e rest ih =>
      obtain ⟨i, b⟩ := e
      by_cases hi : i = k
      · rw [List.filter_cons_of_neg (by simpa using hi), ih, lookup, hi]
        split <;> rfl
      · rw [List.filter_cons_of_pos (by simpa using hi), lookup, ih, lookup]
        by_cases hj : i = j
        · rw [if_pos hj, if_neg (hj ▸ Ne.symm hi), if_pos hj]
        · rw [if_neg hj, if_neg hj]
  exact hlookup t.entries

/-- Pairs without a repeated key are the entries themselves. -/
theorem entries_ofList {pairs : List (κ × α)} (h : (pairs.map Prod.fst).Nodup) :
    (ofList pairs).entries = pairs := by
  induction pairs using List.reverseRecOn with
  | nil => rfl
  | append_singleton pairs e ih =>
    obtain ⟨k, a⟩ := e
    rw [List.map_append, List.nodup_append] at h
    have hk : k ∉ pairs.map Prod.fst := fun hmem ↦ h.2.2 k hmem k (by simp) rfl
    rw [ofList_append_singleton, insert]
    simp only [ih h.1, insertEntry_of_notMem hk]

theorem mem_of_mem_entries_ofList {pairs : List (κ × α)} {e : κ × α}
    (h : e ∈ (ofList pairs).entries) : e ∈ pairs := by
  induction pairs using List.reverseRecOn with
  | nil => simp [empty] at h
  | append_singleton pairs d ih =>
    obtain ⟨k, a⟩ := d
    rw [ofList_append_singleton] at h
    rcases mem_insertEntry h with rfl | hmem
    · simp
    · exact List.mem_append_left _ (ih hmem)

theorem sum_entries_ofList_le (f : κ × α → Nat) (pairs : List (κ × α)) :
    ((ofList pairs).entries.map f).sum ≤ (pairs.map f).sum := by
  induction pairs using List.reverseRecOn with
  | nil => simp [empty]
  | append_singleton pairs d ih =>
    obtain ⟨k, a⟩ := d
    rw [ofList_append_singleton, List.map_append, List.sum_append, List.map_singleton,
      List.sum_singleton]
    exact Nat.le_trans (sum_insertEntry_le f k a _) (Nat.add_le_add_right ih _)

theorem eq_map_of_forall_mem {ι β : Type} {f : ι → α → β} {entries : List (ι × β)}
    {others : List (ι × α)} (hkeys : entries.map Prod.fst = others.map Prod.fst)
    (hnodup : (entries.map Prod.fst).Nodup) (h : ∀ e ∈ others, (e.1, f e.1 e.2) ∈ entries) :
    entries = others.map fun e ↦ (e.1, f e.1 e.2) := by
  induction others generalizing entries with
  | nil => exact List.map_eq_nil_iff.mp hkeys
  | cons other others ih =>
    obtain ⟨_, a⟩ := other
    obtain ⟨⟨k, b⟩, entries, rfl, rfl, hrest⟩ := List.map_eq_cons_iff.mp hkeys
    obtain ⟨hfresh, hnodup⟩ := List.nodup_cons.mp hnodup
    obtain ⟨hfirst, hothers⟩ := List.forall_mem_cons.mp h
    have hvalue : f k a = b := by
      rcases List.mem_cons.mp hfirst with heq | hlater
      · exact (Prod.mk.inj heq).2
      · exact absurd (List.mem_map_of_mem (f := Prod.fst) hlater) hfresh
    have hentries : entries = others.map fun e ↦ (e.1, f e.1 e.2) := by
      apply ih hrest hnodup
      intro e he
      refine (List.mem_cons.mp (hothers e he)).resolve_left fun heq ↦ hfresh ?_
      rw [← congrArg Prod.fst heq, hrest]
      exact List.mem_map_of_mem he
    rw [List.map_cons, ← hentries, hvalue]

/-- A table with the keys of another one, and with values made from its values. -/
theorem eq_map_of_get? {β : Type} {t : Table κ β} {u : Table κ α} {f : κ → α → β}
    (hkeys : t.keys = u.keys) (hget : ∀ k a, u.get? k = some a → t.get? k = some (f k a)) :
    t = u.map f := by
  have hentries : t.entries = u.entries.map fun e ↦ (e.1, f e.1 e.2) := by
    apply eq_map_of_forall_mem hkeys t.nodup_keys
    intro e he
    exact get?_eq_some_iff.mp (hget _ _ (get?_eq_some_iff.mpr he))
  cases t
  subst hentries
  rfl

theorem eq_of_get? {t u : Table κ α} (hkeys : t.keys = u.keys)
    (hget : ∀ k a, u.get? k = some a → t.get? k = some a) : t = u := by
  have hmap : t = u.map fun _ a ↦ a := eq_map_of_get? hkeys hget
  rw [hmap, map]
  simp only [List.map_id']

/-! ## New values -/

variable {β γ : Type}

omit [DecidableEq κ] in
theorem map_map (f : κ → α → β) (g : κ → β → γ) (t : Table κ α) :
    (t.map f).map g = t.map fun k a ↦ g k (f k a) := by
  simp only [map, List.map_map, Function.comp_def]

theorem get?_map (f : κ → α → β) (t : Table κ α) (k : κ) :
    (t.map f).get? k = (t.get? k).map (f k) := by
  have hlookup : ∀ entries : List (κ × α),
      lookup k (entries.map fun e ↦ (e.1, f e.1 e.2)) = (lookup k entries).map (f k) := by
    intro entries
    induction entries with
    | nil => rfl
    | cons e rest ih =>
      obtain ⟨j, b⟩ := e
      by_cases hj : j = k
      · simp only [lookup, List.map_cons, hj, if_true, Option.map_some]
      · simp only [lookup, List.map_cons, if_neg hj, ih]
  exact hlookup t.entries

theorem map_insertEntry (f : κ → α → β) (k : κ) (a : α) (entries : List (κ × α)) :
    (insertEntry k a entries).map (fun e ↦ (e.1, f e.1 e.2)) =
      insertEntry k (f k a) (entries.map fun e ↦ (e.1, f e.1 e.2)) := by
  induction entries with
  | nil => rfl
  | cons e rest ih =>
    obtain ⟨j, b⟩ := e
    by_cases hj : j = k
    · simp only [insertEntry, List.map_cons, if_pos hj]
    · simp only [insertEntry, List.map_cons, if_neg hj, ih]

/-- The values of a table made from a list can be changed before it is made. -/
theorem map_ofList (f : κ → α → β) (pairs : List (κ × α)) :
    (ofList pairs).map f = ofList (pairs.map fun e ↦ (e.1, f e.1 e.2)) := by
  induction pairs using List.reverseRecOn with
  | nil => rfl
  | append_singleton pairs e ih =>
    obtain ⟨k, a⟩ := e
    rw [List.map_append, List.map_singleton, ofList_append_singleton, ofList_append_singleton, ← ih]
    simp only [map, insert, map_insertEntry]

end FencedCode.Table
