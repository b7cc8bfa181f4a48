import FencedCode.Json.Record

/-!
# Fields of objects

The fields of an object are in ascending order of their keys, so no key occurs twice. When the
fields of one object override those of another, each key has the value of the stronger object, or
else that of the other one.
-/

namespace FencedCode

/-- The order of texts is the lexicographic one. -/
theorem Text.before_iff_lt {s t : Text} : Text.before s t ↔ s < t := by
  induction s generalizing t with
  | nil => cases t <;> simp [Text.before]
  | cons c s ih =>
    cases t with
    | nil => simp [Text.before]
    | cons d t =>
      have hless : c.toNat < d.toNat ↔ c < d := Iff.rfl
      simp only [Text.before, Bool.or_eq_true, Bool.and_eq_true, decide_eq_true_eq, ih, hless,
        List.cons_lt_cons_iff]

namespace Json.Fields

/-- Each key comes before those of the fields behind it. -/
def Ascending (fields : Fields) : Prop := fields.Pairwise fun e f ↦ e.1 < f.1

theorem mem_of_mem_insert {key : Text} {value : Json} {fields : Fields} {e : Text × Json}
    (h : e ∈ insert key value fields) : e = (key, value) ∨ e ∈ fields := by
  induction fields with
  | nil => exact .inl (List.mem_singleton.mp h)
  | cons field rest ih =>
    obtain ⟨k, v⟩ := field
    rw [insert] at h
    split at h
    · exact (List.mem_cons.mp h).imp_right (List.mem_cons_of_mem _)
    · split at h
      · exact List.mem_cons.mp h
      · rcases List.mem_cons.mp h with rfl | hrest
        · exact .inr List.mem_cons_self
        · exact (ih hrest).imp_right (List.mem_cons_of_mem _)

theorem Ascending.insert {fields : Fields} (h : fields.Ascending) (key : Text) (value : Json) :
    (Fields.insert key value fields).Ascending := by
  induction fields with
  | nil => exact List.pairwise_singleton _ _
  | cons field rest ih =>
    obtain ⟨k, v⟩ := field
    obtain ⟨hbefore, hrest⟩ := List.pairwise_cons.mp h
    rw [Fields.insert]
    split
    · rename_i hsame
      exact List.pairwise_cons.mpr ⟨fun e he ↦ hsame ▸ hbefore e he, hrest⟩
    · rename_i hne
      split
      · rename_i hless
        rw [Text.before_iff_lt] at hless
        refine List.pairwise_cons.mpr ⟨fun e he ↦ ?_, h⟩
        rcases List.mem_cons.mp he with rfl | he
        · exact hless
        · exact List.lt_trans hless (hbefore e he)
      · rename_i hnot
        rw [Text.before_iff_lt] at hnot
        refine List.pairwise_cons.mpr ⟨fun e he ↦ ?_, ih hrest⟩
        rcases mem_of_mem_insert he with rfl | he
        · exact (List.le_iff_lt_or_eq.mp (List.not_lt.mp hnot)).resolve_right hne
        · exact hbefore e he

theorem ascending_ofList (pairs : List (Text × Json)) : (ofList pairs).Ascending := by
  have hfold : ∀ fields : Fields, fields.Ascending →
      (pairs.foldl (fun fields pair ↦ insert pair.1 pair.2 fields) fields).Ascending := by
    induction pairs with
    | nil => exact fun _ h ↦ h
    | cons pair rest ih => exact fun fields h ↦ ih _ (h.insert pair.1 pair.2)
  exact hfold [] List.Pairwise.nil

theorem get?_eq_none_of_forall_ne {key : Text} {fields : Fields} (h : ∀ e ∈ fields, e.1 ≠ key) :
    fields.get? key = none := by
  induction fields with
  | nil => rfl
  | cons field rest ih =>
    obtain ⟨hfirst, hrest⟩ := List.forall_mem_cons.mp h
    rw [get?, if_neg hfirst, ih hrest]

/-- A key has the value of the stronger fields, if they have one. -/
theorem get?_override {stronger : Fields} (h : stronger.Ascending) (fields : Fields) (key : Text) :
    (override fields stronger).get? key = (stronger.get? key).or (fields.get? key) := by
  induction stronger generalizing fields with
  | nil => rfl
  | cons field rest ih =>
    obtain ⟨k, v⟩ := field
    obtain ⟨hbefore, hrest⟩ := List.pairwise_cons.mp h
    show (override (insert k v fields) rest).get? key = _
    rw [ih hrest, get?_insert, get?]
    by_cases hsame : k = key
    · have hnone : get? key rest = none := by
        apply get?_eq_none_of_forall_ne
        intro e he heq
        have hless := hbefore e he
        rw [heq, hsame] at hless
        exact List.lt_irrefl key hless
      rw [if_pos hsame, if_pos hsame, hnone]
      rfl
    · rw [if_neg hsame, if_neg hsame]

end Json.Fields

namespace Json

theorem ascending_of_value? {depth : Nat} {tree : Tree} {fields : Fields}
    (h : tree.value? depth = some (.object fields)) : fields.Ascending := by
  cases tree with
  | object pairs =>
    simp only [Tree.value?, Option.ite_none_left_eq_some, Option.map_eq_some_iff] at h
    obtain ⟨-, values, -, hvalues⟩ := h
    rw [← Json.object.inj hvalues]
    exact Fields.ascending_ofList values
  | _ => simp [Tree.value?] at h

theorem ascending_of_fieldsOrEmpty? {slot : Slot} {fields : Fields}
    (h : slot.fieldsOrEmpty? = some fields) : fields.Ascending := by
  unfold Slot.fieldsOrEmpty? at h
  split at h
  · obtain rfl := Option.some.inj h
    exact List.Pairwise.nil
  · obtain rfl := Option.some.inj h
    exact List.Pairwise.nil
  · split at h
    · rename_i heq
      obtain rfl := Option.some.inj h
      exact ascending_of_value? heq
    · exact absurd h (Option.some_ne_none _).symm
  · exact absurd h (Option.some_ne_none _).symm

end Json

end FencedCode
