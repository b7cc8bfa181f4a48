import FencedCode.Proofs.Module.Origin
import FencedCode.Proofs.Text.Cut
import Mathlib.Data.List.Nodup

/-!
# The mapping of a name

A name is tried with the substitutions of a single mapping. The mapping whose pattern is the name
itself goes before all others. Without one it is, among the mappings whose patterns match, the last
of those with the longest beginning. Its substitutions are tried in order, up to the first one that
stands for a file.
-/

namespace FencedCode

namespace Text

/-- Beginnings of one text are as long in bytes as they are in characters. -/
theorem byteSize_le_byteSize_iff {s t name : Text} (hs : s <+: name) (ht : t <+: name) :
    byteSize s ≤ byteSize t ↔ s.length ≤ t.length := by
  rcases List.prefix_or_prefix_of_prefix hs ht with ⟨rest, rfl⟩ | ⟨rest, rfl⟩
  · simp
  · cases rest with
    | nil => simp
    | cons c rest =>
      have hpos := c.utf8Size_pos
      simp only [byteSize_append, byteSize_cons, List.length_append, List.length_cons]
      omega

end Text

/-! ## Requests for the paths that are tried -/

namespace FileView

variable (v : FileView)

/-- The paths are tried one after another, up to the first one that stands for a file. -/
theorem asked_firstResolved (paths : List Text) :
    v.asked (Mapping.firstResolved paths) =
      (paths.take (paths.findIdx (fun path ↦ (v.eval (Lookup.fileOrFolder path)).isSome)
        + 1)).flatMap fun path ↦ v.asked (Lookup.fileOrFolder path) := by
  induction paths with
  | nil => rfl
  | cons path rest ih =>
    rw [Mapping.firstResolved, asked_bind, List.findIdx_cons, List.take_succ_cons,
      List.flatMap_cons]
    cases hpath : v.eval (Lookup.fileOrFolder path) with
    | some found => simp
    | none => simp [ih]

end FileView

namespace Mapping

/-! ## Patterns that match -/

/-- The pattern has no star, and it is the name. -/
def IsExact (m : Mapping) (name : Text) : Prop := '*' ∉ m.pattern ∧ m.pattern = name

/-- The pattern is `beginning` and `ending` with its first star between them, and the name has
`capture` in the place of the star. -/
structure FitsAround (m : Mapping) (name beginning capture ending : Text) : Prop where
  pattern_eq : m.pattern = beginning ++ '*' :: ending
  star_notMem : '*' ∉ beginning
  name_eq : name = beginning ++ (capture ++ ending)

variable {m other : Mapping} {name beginning capture ending : Text}

theorem FitsAround.splitFirst_eq (h : m.FitsAround name beginning capture ending) :
    Text.splitFirst '*' m.pattern = some (beginning, ending) :=
  Text.splitFirst_eq_some_iff.mpr ⟨h.pattern_eq, h.star_notMem⟩

theorem capture?_eq_some_iff : m.capture? name = some capture ↔
    m.IsExact name ∧ capture = [] ∨ ∃ beginning ending,
      m.FitsAround name beginning capture ending := by
  unfold capture?
  cases hsplit : Text.splitFirst '*' m.pattern with
  | none =>
    have hstar := Text.splitFirst_eq_none_iff.mp hsplit
    constructor
    · intro h
      dsimp only at h
      split at h
      · rename_i hname
        exact .inl ⟨⟨hstar, hname⟩, (Option.some.inj h).symm⟩
      · exact absurd h (Option.some_ne_none capture).symm
    · rintro (⟨hexact, rfl⟩ | ⟨beginning, ending, hfits⟩)
      · exact if_pos hexact.2
      · rw [hfits.splitFirst_eq] at hsplit
        exact absurd hsplit (Option.some_ne_none _)
  | some cut =>
    obtain ⟨beginning, ending⟩ := cut
    obtain ⟨hpattern, hstar⟩ := Text.splitFirst_eq_some_iff.mp hsplit
    simp only [Option.bind_eq_some_iff, Text.stripStart?_eq_some_iff, Text.stripEnd?_eq_some_iff]
    constructor
    · rintro ⟨rest, hname, rfl⟩
      exact .inr ⟨beginning, ending, hpattern, hstar, hname⟩
    · rintro (⟨hexact, -⟩ | ⟨beginning', ending', hfits⟩)
      · exact absurd (hpattern ▸ List.mem_append_right _ List.mem_cons_self) hexact.1
      · rw [hfits.splitFirst_eq, Option.some_inj, Prod.mk.injEq] at hsplit
        obtain ⟨rfl, rfl⟩ := hsplit
        exact ⟨_, hfits.name_eq, rfl⟩

/-- The pattern matches the name. -/
def Matches (m : Mapping) (name : Text) : Prop :=
  m.IsExact name ∨ ∃ beginning capture ending, m.FitsAround name beginning capture ending

theorem isSome_capture?_iff : (m.capture? name).isSome ↔ m.Matches name := by
  rw [Option.isSome_iff_exists, Matches]
  simp only [capture?_eq_some_iff]
  constructor
  · rintro ⟨capture, ⟨hexact, -⟩ | ⟨beginning, ending, hfits⟩⟩
    · exact .inl hexact
    · exact .inr ⟨beginning, capture, ending, hfits⟩
  · rintro (hexact | ⟨beginning, capture, ending, hfits⟩)
    · exact ⟨[], .inl ⟨hexact, rfl⟩⟩
    · exact ⟨capture, .inr ⟨beginning, ending, hfits⟩⟩

/-! ## Preference -/

theorem atLeast_of_star_notMem (h : '*' ∉ m.pattern) (other : Mapping) : m.atLeast other := by
  rw [atLeast, beginningSize?, Text.splitFirst_eq_none_iff.mpr h]
  rfl

theorem FitsAround.beginningSize?_eq (h : m.FitsAround name beginning capture ending) :
    m.beginningSize? = some (Text.byteSize beginning) := by
  rw [beginningSize?, h.splitFirst_eq, Option.map_some]

theorem FitsAround.not_atLeast (h : m.FitsAround name beginning capture ending)
    (hother : '*' ∉ other.pattern) : ¬ m.atLeast other := by
  rw [atLeast, h.beginningSize?_eq, beginningSize?, Text.splitFirst_eq_none_iff.mpr hother]
  exact Bool.false_ne_true

/-- Of two patterns that match around a star, one is preferred for its longer beginning. -/
theorem FitsAround.atLeast_iff {beginning' capture' ending' : Text}
    (h : m.FitsAround name beginning capture ending)
    (h' : other.FitsAround name beginning' capture' ending') :
    m.atLeast other ↔ beginning'.length ≤ beginning.length := by
  have hprefix : beginning <+: name := ⟨_, h.name_eq.symm⟩
  have hprefix' : beginning' <+: name := ⟨_, h'.name_eq.symm⟩
  rw [atLeast, h.beginningSize?_eq, h'.beginningSize?_eq,
    ← Text.byteSize_le_byteSize_iff hprefix' hprefix]
  exact decide_eq_true_iff

theorem atLeast_total (m other : Mapping) : m.atLeast other ∨ other.atLeast m := by
  unfold atLeast
  cases m.beginningSize? with
  | none => exact .inl rfl
  | some n =>
    cases other.beginningSize? with
    | none => exact .inr rfl
    | some k => simpa using Nat.le_total k n

theorem atLeast_trans {third : Mapping} (h : m.atLeast other) (h' : other.atLeast third) :
    m.atLeast third := by
  grind [atLeast]

/-! ## The choice -/

/-- The choice when one mapping more stands at the end. -/
theorem choose_append_singleton (name : Text) (mappings : List Mapping) (m : Mapping) :
    choose name (mappings ++ [m]) =
      match m.capture? name, choose name mappings with
      | none, best => best
      | some capture, none => some (m, capture)
      | some capture, some best => if m.atLeast best.1 then some (m, capture) else some best := by
  rw [choose, List.filterMap_append, List.foldl_append, ← choose]
  cases hcapture : m.capture? name with
  | none => simp [hcapture]
  | some capture =>
    simp only [List.filterMap_cons, hcapture, Option.map_some, List.filterMap_nil,
      List.foldl_cons, List.foldl_nil]
    cases choose name mappings with
    | none => rfl
    | some best => rfl

/-- The mapping matches, it is preferred to those in front of it as much as they to it, and to those
behind it more. -/
structure IsPreferred (name : Text) (front : List Mapping) (m : Mapping) (back : List Mapping) :
    Prop where
  front : ∀ other ∈ front, other.Matches name → m.atLeast other
  back : ∀ other ∈ back, other.Matches name → ¬ other.atLeast m

/-- A mapping behind all others that does not win leaves the preferred one as it is. -/
theorem IsPreferred.append_singleton {name : Text} {front back : List Mapping} {m last : Mapping}
    (h : IsPreferred name front m back) (hlast : last.Matches name → ¬ last.atLeast m) :
    IsPreferred name front m (back ++ [last]) where
  front := h.front
  back other hother hmatches := by
    rcases List.mem_append.mp hother with hback | hend
    · exact h.back other hback hmatches
    · obtain rfl := List.mem_singleton.mp hend
      exact hlast hmatches

/-- A mapping that wins against the preferred one wins against all. -/
theorem IsPreferred.of_atLeast {name : Text} {front back : List Mapping} {m last : Mapping}
    (h : IsPreferred name front m back) (hbetter : last.atLeast m) :
    IsPreferred name (front ++ m :: back) last [] where
  front other hother hmatches := by
    rcases List.mem_append.mp hother with hfront | hrest
    · exact atLeast_trans hbetter (h.front other hfront hmatches)
    · rcases List.mem_cons.mp hrest with rfl | hback
      · exact hbetter
      · have hnot := h.back other hback hmatches
        exact atLeast_trans hbetter ((atLeast_total m other).resolve_right hnot)
  back other hother := absurd hother List.not_mem_nil

theorem choose_cases (name : Text) (mappings : List Mapping) :
    (choose name mappings = none ∧ ∀ m ∈ mappings, ¬ m.Matches name) ∨
      ∃ front m back capture, mappings = front ++ m :: back ∧
        choose name mappings = some (m, capture) ∧ m.capture? name = some capture ∧
          IsPreferred name front m back := by
  induction mappings using List.reverseRecOn with
  | nil => exact .inl ⟨rfl, fun _ h ↦ absurd h List.not_mem_nil⟩
  | append_singleton mappings last ih =>
    rw [choose_append_singleton]
    cases hcapture : last.capture? name with
    | none =>
      have hlast : ¬ last.Matches name := by
        rw [← isSome_capture?_iff, hcapture]
        exact Bool.false_ne_true
      rcases ih with ⟨hnone, hall⟩ | ⟨front, m, back, capture, rfl, hsome, hm, hfirst⟩
      · exact .inl ⟨hnone, List.forall_mem_append.mpr ⟨hall, List.forall_mem_singleton.mpr hlast⟩⟩
      · exact .inr ⟨front, m, back ++ [last], capture, by simp, hsome, hm,
          hfirst.append_singleton fun hmatches ↦ absurd hmatches hlast⟩
    | some capture =>
      right
      rcases ih with ⟨hnone, hall⟩ | ⟨front, m, back, capture', rfl, hsome, hm, hfirst⟩
      · rw [hnone]
        refine ⟨mappings, last, [], capture, rfl, rfl, hcapture, ?_, by simp⟩
        exact fun other hother hmatches ↦ absurd hmatches (hall other hother)
      · rw [hsome]
        by_cases hbetter : last.atLeast m
        · exact ⟨front ++ m :: back, last, [], capture, rfl, if_pos hbetter, hcapture,
            hfirst.of_atLeast hbetter⟩
        · exact ⟨front, m, back ++ [last], capture', by simp, if_neg hbetter, hm,
            hfirst.append_singleton fun _ ↦ hbetter⟩

/-- The mapping that a name is tried with, and what its star stands for. Its pattern is the only one
that is the name, or no pattern is the name, and of those that match around a star it is the last
one with the longest beginning. -/
inductive IsChosen (name : Text) (mappings : List Mapping) : Mapping → Text → Prop
  | exact {front back : List Mapping} {m : Mapping} (hmappings : mappings = front ++ m :: back)
      (hexact : m.IsExact name) (honly : ∀ other ∈ front ++ back, other.pattern ≠ name) :
      IsChosen name mappings m []
  | longest {front back : List Mapping} {m : Mapping} {beginning capture ending : Text}
      (hmappings : mappings = front ++ m :: back) (hexact : ∀ m ∈ mappings, ¬ m.IsExact name)
      (hfits : m.FitsAround name beginning capture ending)
      (hfront : ∀ other ∈ front, ∀ b c e, other.FitsAround name b c e →
        b.length ≤ beginning.length)
      (hback : ∀ other ∈ back, ∀ b c e, other.FitsAround name b c e →
        b.length < beginning.length) :
      IsChosen name mappings m capture

theorem IsPreferred.isChosen {front back : List Mapping} (h : IsPreferred name front m back)
    (hcapture : m.capture? name = some capture)
    (hnodup : ((front ++ m :: back).map (·.pattern)).Nodup) :
    IsChosen name (front ++ m :: back) m capture := by
  rcases capture?_eq_some_iff.mp hcapture with ⟨hexact, rfl⟩ | ⟨beginning, ending, hfits⟩
  · rw [List.map_append, List.map_cons, List.nodup_middle, List.nodup_cons,
      ← List.map_append] at hnodup
    refine .exact rfl hexact fun other hother hname ↦ hnodup.1 ?_
    exact List.mem_map.mpr ⟨other, hother, hname.trans hexact.2.symm⟩
  · refine .longest rfl ?_ hfits ?_ ?_
    · intro other hother hexact
      rcases List.mem_append.mp hother with hfront | hrest
      · exact hfits.not_atLeast hexact.1 (h.front other hfront (.inl hexact))
      · rcases List.mem_cons.mp hrest with rfl | hback
        · exact hexact.1 (hfits.pattern_eq ▸ List.mem_append_right _ List.mem_cons_self)
        · exact h.back other hback (.inl hexact) (atLeast_of_star_notMem hexact.1 m)
    · intro other hother b c e hother'
      have hmatches : other.Matches name := .inr ⟨b, c, e, hother'⟩
      exact (hfits.atLeast_iff hother').mp (h.front other hother hmatches)
    · intro other hother b c e hother'
      have hmatches : other.Matches name := .inr ⟨b, c, e, hother'⟩
      exact Nat.lt_of_not_le (mt (hother'.atLeast_iff hfits).mpr (h.back other hother hmatches))

/-- A name that no pattern matches is looked for nowhere. Any other name is looked for in the places
of a single mapping, and there up to the first place that stands for a file. -/
theorem resolve_isChosen (name : Text) {mappings : List Mapping}
    (hnodup : (mappings.map (·.pattern)).Nodup) :
    (resolve name mappings = pure none ∧ ∀ m ∈ mappings, ¬ m.Matches name) ∨
      ∃ m capture, IsChosen name mappings m capture ∧ ∀ v : FileView,
        let paths := m.substitutions.map (candidate capture)
        v.eval (resolve name mappings) =
          paths.findSome? (fun path ↦ v.eval (Lookup.fileOrFolder path)) ∧
        v.asked (resolve name mappings) =
          (paths.take (paths.findIdx (fun path ↦ (v.eval (Lookup.fileOrFolder path)).isSome)
            + 1)).flatMap fun path ↦ v.asked (Lookup.fileOrFolder path) := by
  rcases choose_cases name mappings with ⟨hnone, hall⟩ |
    ⟨front, m, back, capture, rfl, hsome, hcapture, hpreferred⟩
  · left
    refine ⟨?_, hall⟩
    rw [resolve, hnone]
  · right
    refine ⟨m, capture, hpreferred.isChosen hcapture hnodup, fun v ↦ ?_⟩
    rw [resolve, hsome]
    exact ⟨v.eval_firstResolved _, v.asked_firstResolved _⟩

def sampleMappings : List Mapping :=
  [⟨"@lib/*".toList, ["/lib/*".toList]⟩, ⟨"@lib/exact".toList, ["/exact.ts".toList]⟩,
    ⟨"*".toList, ["/any/*".toList]⟩,
    ⟨"@lib/a*".toList, ["/missing/*".toList, "/a/*".toList, "/late/*".toList]⟩]

def sampleView : FileView where
  fileExists path := ["/lib/ab.ts".toList, "/a/b.ts".toList, "/late/b.ts".toList].contains path
  folderExists _ := false
  readText _ := none

theorem resolve_isChosen_sampleMappings :
    (sampleMappings.map (·.pattern)).Nodup ∧
      ∃ m capture, IsChosen "@lib/ab".toList sampleMappings m capture ∧
        (m.substitutions.map (candidate capture)).findSome?
          (fun path ↦ sampleView.eval (Lookup.fileOrFolder path)) = some "/a/b.ts".toList := by
  have hnodup : (sampleMappings.map (·.pattern)).Nodup := by decide
  have hfound : sampleView.eval (resolve "@lib/ab".toList sampleMappings) =
      some "/a/b.ts".toList := by decide
  refine ⟨hnodup, ?_⟩
  rcases resolve_isChosen "@lib/ab".toList hnodup with ⟨hnone, -⟩ | ⟨m, capture, hchosen, hfinds⟩
  · rw [hnone] at hfound
    exact absurd hfound (Option.some_ne_none _).symm
  · exact ⟨m, capture, hchosen, (hfinds sampleView).1.symm.trans hfound⟩

end Mapping

end FencedCode
