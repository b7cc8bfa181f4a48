import FencedCode.Path.Normal
import Mathlib.Data.List.Basic
import Mathlib.Data.List.Induction

/-!
# Walking along a name

A name leads some folders up and then down along segments. Read from a folder it takes as many
segments off the folder as it leads up, and puts its own on top. So the name of a file that is read
from a folder lies below the folder exactly when it comes back down through the folders that it left
and goes on from there.
-/

namespace FencedCode.Path

/-- The segments of a name, whatever its separators are. -/
def parts (s : Text) : List Text := segments (s.map separator)

/-- Whether a name starts at the root, whatever its separators are. -/
def rooted (s : Text) : Bool := isAbsolute (s.map separator)

/-- The segments of the normal form of a name, the last one first. -/
def stack (s : Text) : List Text := walk (rooted s) (parts s)

theorem normalize_eq_render (s : Text) : normalize s = render (rooted s) (stack s) := rfl

theorem parts_append_slash (folder name : Text) :
    parts (folder ++ '/' :: name) = parts folder ++ parts name := by
  rw [parts, List.map_append, List.map_cons]
  exact List.splitOn_append_cons_self _ _

theorem exists_eq_slash_cons {s : Text} (h : isAbsolute s) : ∃ rest, s = '/' :: rest :=
  List.head?_eq_some_iff.mp (of_decide_eq_true h)

theorem slash_mem_of_isAbsolute {s : Text} (h : isAbsolute s) : '/' ∈ s := by
  obtain ⟨rest, rfl⟩ := exists_eq_slash_cons h
  exact List.mem_cons_self

theorem isAbsolute_append {folder : Text} (h : folder ≠ []) (name : Text) :
    isAbsolute (folder ++ name) = isAbsolute folder := by
  rw [isAbsolute, List.head?_append_of_ne_nil _ h, isAbsolute]

/-- In front of the root stands nothing. -/
theorem segments_slash_cons (s : Text) : segments ('/' :: s) = [] :: segments s :=
  List.splitOn_append_cons_self [] s

theorem rooted_append {folder : Text} (h : folder ≠ []) (name : Text) :
    rooted (folder ++ name) = rooted folder := by
  rw [rooted, List.map_append, isAbsolute_append (mt List.map_eq_nil_iff.mp h), rooted]

theorem stack_append_slash {folder : Text} (h : folder ≠ []) (name : Text) :
    stack (folder ++ '/' :: name) = (parts name).foldl (push (rooted folder)) (stack folder) := by
  rw [stack, rooted_append h, parts_append_slash, walk, List.foldl_append]
  rfl

/-! ## One segment more -/

theorem push_of_void {segment : Text} (h : segment = [] ∨ segment = dot) (absolute : Bool)
    (walked : List Text) : push absolute walked segment = walked := if_pos h

theorem push_of_ne {segment : Text} (h : ¬ (segment = [] ∨ segment = dot))
    (hne : segment ≠ dotDot) (absolute : Bool) (walked : List Text) :
    push absolute walked segment = segment :: walked := by
  unfold push
  rw [if_neg h, if_neg hne]

theorem push_dotDot_cons {top : Text} (h : top ≠ dotDot) (absolute : Bool) (below : List Text) :
    push absolute (top :: below) dotDot = below := by
  rw [push, if_neg (by decide), if_pos rfl]
  exact if_pos h

/-- A segment that can stand in a normal form. -/
structure IsProper (segment : Text) : Prop where
  ne_nil : segment ≠ []
  ne_dot : segment ≠ dot
  slash_notMem : '/' ∉ segment

theorem isProper_dotDot : IsProper dotDot := ⟨by decide, by decide, by decide⟩

theorem isProper_of_mem_push {absolute : Bool} {walked : List Text} {segment : Text}
    (hwalked : ∀ s ∈ walked, IsProper s) (hsegment : '/' ∉ segment) :
    ∀ s ∈ push absolute walked segment, IsProper s := by
  by_cases hvoid : segment = [] ∨ segment = dot
  · rwa [push_of_void hvoid]
  by_cases hup : segment = dotDot
  · unfold push
    rw [if_neg hvoid, if_pos hup]
    rcases walked with _ | ⟨top, below⟩
    · cases absolute
      · simpa using isProper_dotDot
      · simp
    · dsimp only
      split
      · exact (List.forall_mem_cons.mp hwalked).2
      · split
        · exact hwalked
        · exact List.forall_mem_cons.mpr ⟨isProper_dotDot, hwalked⟩
  · rw [push_of_ne hvoid hup]
    rw [not_or] at hvoid
    exact List.forall_mem_cons.mpr ⟨⟨hvoid.1, hvoid.2, hsegment⟩, hwalked⟩

theorem isProper_of_mem_foldl_push {absolute : Bool} {segments walked : List Text}
    (hwalked : ∀ s ∈ walked, IsProper s) (hsegments : ∀ s ∈ segments, '/' ∉ s) :
    ∀ s ∈ segments.foldl (push absolute) walked, IsProper s := by
  induction segments generalizing walked with
  | nil => exact hwalked
  | cons segment rest ih =>
    obtain ⟨hfirst, hrest⟩ := List.forall_mem_cons.mp hsegments
    exact ih (isProper_of_mem_push hwalked hfirst) hrest

theorem slash_notMem_of_mem_splitOn {s : Text} : ∀ segment ∈ s.splitOn '/', '/' ∉ segment := by
  induction s with
  | nil => simp
  | cons c s ih =>
    by_cases hc : c = '/'
    · subst hc
      have hsplit : ('/' :: s).splitOn '/' = [] :: s.splitOn '/' := segments_slash_cons s
      rw [hsplit]
      exact List.forall_mem_cons.mpr ⟨by simp, ih⟩
    · obtain ⟨first, rest, hsplit⟩ := List.exists_cons_of_ne_nil (List.splitOn_ne_nil '/' s)
      have hcons : (c :: s).splitOn '/' = (c :: first) :: rest := by
        rw [List.splitOn_cons_eq_if_modifyHead, if_neg (by simpa using hc), hsplit]
        rfl
      rw [hsplit] at ih
      obtain ⟨hfirst, hrest⟩ := List.forall_mem_cons.mp ih
      rw [hcons]
      exact List.forall_mem_cons.mpr ⟨by simp [Ne.symm hc, hfirst], hrest⟩

/-- The segments of a normal form are proper. -/
theorem isProper_of_mem_stack (s : Text) : ∀ segment ∈ stack s, IsProper segment :=
  isProper_of_mem_foldl_push (by simp) slash_notMem_of_mem_splitOn

/-! ## Up and down -/

/-- What is left of walked segments so many folders up. -/
def climb (absolute : Bool) : Nat → List Text → List Text
  | 0, walked => walked
  | up + 1, walked => climb absolute up (push absolute walked dotDot)

theorem climb_succ (absolute : Bool) (up : Nat) (walked : List Text) :
    climb absolute (up + 1) walked = push absolute (climb absolute up walked) dotDot := by
  induction up generalizing walked with
  | zero => rfl
  | succ up ih =>
    rw [climb, ih]
    rfl

theorem climb_append {down : List Text} (h : dotDot ∉ down) (absolute : Bool) {up : Nat}
    (hup : up ≤ down.length) (below : List Text) :
    climb absolute up (down ++ below) = (down ++ below).drop up := by
  induction up generalizing down with
  | zero => rfl
  | succ up ih =>
    cases down with
    | nil => simp at hup
    | cons top down =>
      rw [List.cons_append, climb, push_dotDot_cons (Ne.symm (List.ne_of_not_mem_cons h)),
        ih (List.not_mem_of_not_mem_cons h) (Nat.le_of_succ_le_succ hup), List.drop_succ_cons]

theorem climb_true_nil (up : Nat) : climb true up [] = [] := by
  induction up with
  | zero => rfl
  | succ up ih => exact ih

theorem climb_false_replicate (up above : Nat) :
    climb false up (List.replicate above dotDot) = List.replicate (above + up) dotDot := by
  induction up generalizing above with
  | zero => rfl
  | succ up ih =>
    have hpush : push false (List.replicate above dotDot) dotDot =
        List.replicate (above + 1) dotDot := by
      cases above <;> rfl
    rw [climb, hpush, ih, Nat.add_right_comm, Nat.add_assoc]

theorem climb_false_nil (up : Nat) : climb false up [] = List.replicate up dotDot := by
  have hclimb := climb_false_replicate up 0
  rwa [Nat.zero_add] at hclimb

/-- The segments lead so many folders up, and from there down. The last segment comes first. -/
def Leads (segments : List Text) (up : Nat) (down : List Text) : Prop :=
  dotDot ∉ down ∧ walk false segments = down ++ List.replicate up dotDot

/-- A step of a walk that puts a segment on top when it names something, and takes the top off with
`..` when that names something. What `..` does elsewhere is left open. -/
structure IsStep (step : List Text → Text → List Text) : Prop where
  void : ∀ {segment}, segment = [] ∨ segment = dot → ∀ walked, step walked segment = walked
  down : ∀ {segment}, ¬ (segment = [] ∨ segment = dot) → segment ≠ dotDot →
    ∀ walked, step walked segment = segment :: walked
  back : ∀ {top}, top ≠ dotDot → ∀ below, step (top :: below) dotDot = below

theorem isStep_push (absolute : Bool) : IsStep (push absolute) where
  void h walked := push_of_void h absolute walked
  down h hne walked := push_of_ne h hne absolute walked
  back h below := push_dotDot_cons h absolute below

theorem climb_eq_repeat (absolute : Bool) (up : Nat) (walked : List Text) :
    climb absolute up walked = Nat.repeat (push absolute · dotDot) up walked := by
  induction up with
  | zero => rfl
  | succ up ih => rw [climb_succ, ih, Nat.repeat]

/-- Segments lead some steps up and then down, whatever the steps of the walk are and wherever it
begins. -/
theorem exists_foldl_eq (segments : List Text) : ∃ up down, dotDot ∉ down ∧ ∀ step, IsStep step →
    ∀ walked, segments.foldl step walked = down ++ Nat.repeat (step · dotDot) up walked := by
  induction segments using List.reverseRecOn with
  | nil => exact ⟨0, [], List.not_mem_nil, fun _ _ _ ↦ rfl⟩
  | append_singleton segments segment ih =>
    obtain ⟨up, down, hdown, hfold⟩ := ih
    have hlast (step : List Text → Text → List Text) (h : IsStep step) (walked : List Text) :
        (segments ++ [segment]).foldl step walked =
          step (down ++ Nat.repeat (step · dotDot) up walked) segment := by
      rw [List.foldl_append, hfold step h]
      rfl
    by_cases hvoid : segment = [] ∨ segment = dot
    · exact ⟨up, down, hdown, fun step h walked ↦ by rw [hlast step h, h.void hvoid]⟩
    by_cases hup : segment = dotDot
    · rcases down with _ | ⟨top, down⟩
      · refine ⟨up + 1, [], hdown, fun step h walked ↦ ?_⟩
        rw [hlast step h, hup]
        rfl
      · refine ⟨up, down, List.not_mem_of_not_mem_cons hdown, fun step h walked ↦ ?_⟩
        rw [hlast step h, hup, List.cons_append, h.back (Ne.symm (List.ne_of_not_mem_cons hdown))]
    · refine ⟨up, segment :: down, ?_, fun step h walked ↦ ?_⟩
      · rw [List.mem_cons, not_or]
        exact ⟨Ne.symm hup, hdown⟩
      · rw [hlast step h, h.down hvoid hup, List.cons_append]

/-- Segments that lead up and down do so from wherever the walk begins. -/
theorem exists_leads (segments : List Text) : ∃ up down, Leads segments up down ∧
    ∀ absolute walked,
      segments.foldl (push absolute) walked = down ++ climb absolute up walked := by
  obtain ⟨up, down, hdown, hfold⟩ := exists_foldl_eq segments
  have hpush (absolute : Bool) (walked : List Text) :
      segments.foldl (push absolute) walked = down ++ climb absolute up walked := by
    rw [hfold _ (isStep_push absolute), climb_eq_repeat]
  refine ⟨up, down, ⟨hdown, ?_⟩, hpush⟩
  rw [walk, hpush, climb_false_nil]

theorem replicate_dotDot_append_inj {down down' : List Text} {up up' : Nat} (h : dotDot ∉ down)
    (h' : dotDot ∉ down')
    (heq : down ++ List.replicate up dotDot = down' ++ List.replicate up' dotDot) :
    down = down' ∧ up = up' := by
  have hfilter : ∀ {list : List Text} {n : Nat}, dotDot ∉ list →
      (list ++ List.replicate n dotDot).filter (· ≠ dotDot) = list := by
    intro list n hlist
    rw [List.filter_append, List.filter_replicate_of_neg (by simp), List.append_nil,
      List.filter_eq_self]
    intro s hs
    simp only [ne_eq, decide_not, Bool.not_eq_eq_eq_not, Bool.not_true, decide_eq_false_iff_not]
    rintro rfl
    exact hlist hs
  have hdown : down = down' := by rw [← hfilter h, heq, hfilter h']
  have hlength := congrArg List.length heq
  rw [hdown] at hlength
  simp only [List.length_append, List.length_replicate] at hlength
  exact ⟨hdown, by omega⟩

/-- A walk takes segments off where it begins and puts its own on top. -/
theorem Leads.foldl_push {segments down : List Text} {up : Nat} (h : Leads segments up down)
    (absolute : Bool) (walked : List Text) :
    segments.foldl (push absolute) walked = down ++ climb absolute up walked := by
  obtain ⟨up', down', hleads, hfold⟩ := exists_leads segments
  obtain ⟨rfl, rfl⟩ := replicate_dotDot_append_inj h.1 hleads.1 (h.2.symm.trans hleads.2)
  exact hfold absolute walked

end FencedCode.Path
