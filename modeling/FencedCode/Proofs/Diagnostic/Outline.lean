import Mathlib.Algebra.GroupWithZero.Nat
import FencedCode.Diagnostic.Message
import FencedCode.Diagnostic.Position
import FencedCode.Proofs.Text.Cut
import FencedCode.Proofs.Text.Rows

/-!
# Outlines

Written out with line feeds, a message is an outline: it has a line for each node, and the blanks in
front of the line say how deep the node is. As long as the texts of the nodes are lines of their own
that do not begin with a blank, the depths and the texts are read back from the outline. They
determine the message, but for one thing: nothing tells a text from a chain without elaborations.
-/

namespace FencedCode.Message

open Text

/-- The messages that a message is elaborated by. -/
def elaborations : Message → List Message
  | text _ => []
  | chain _ next => next

mutual

/-- The nodes of a message below `depth` others in pre-order, each with the number of nodes above
it. -/
def nodesAt (depth : Nat) : Message → List (Nat × Text)
  | text t => [(depth, t)]
  | chain t next => (depth, t) :: nodesNext (depth + 1) next

def nodesNext (depth : Nat) : List Message → List (Nat × Text)
  | [] => []
  | m :: rest => nodesAt depth m ++ nodesNext depth rest

end

def nodes (m : Message) : List (Nat × Text) := m.nodesAt 0

mutual

/-- The message with each text written as a chain without elaborations. -/
def chained : Message → Message
  | text t => chain t []
  | chain t next => chain t (chainedNext next)

def chainedNext : List Message → List Message
  | [] => []
  | m :: rest => m.chained :: chainedNext rest

end

/-- The line of a node. -/
def outlineLine (node : Nat × Text) : Text := List.replicate (2 * node.1) ' ' ++ node.2

variable {depth : Nat} {m m' : Message} {next next' : List Message}

theorem nodesAt_eq (depth : Nat) (m : Message) :
    nodesAt depth m = (depth, m.head) :: nodesNext (depth + 1) m.elaborations := by
  cases m <;> rfl

theorem chained_eq (m : Message) : m.chained = chain m.head (chainedNext m.elaborations) := by
  cases m <;> rfl

theorem flattenAt_eq (newLine : Text) (depth : Nat) (m : Message) :
    flattenAt newLine depth m = m.head ++ flattenNext newLine (depth + 1) m.elaborations := by
  cases m with
  | text t => exact (List.append_nil t).symm
  | chain t next => rfl

/-! ## The lines of an outline -/

mutual

theorem flattenAt_eq_flatMap (newLine : Text) : ∀ (depth : Nat) (m : Message),
    newLine ++ List.replicate (2 * depth) ' ' ++ flattenAt newLine depth m =
      (nodesAt depth m).flatMap fun node ↦ newLine ++ outlineLine node
  | depth, text t => by
    simp [flattenAt, nodesAt, outlineLine]
  | depth, chain t next => by
    have hnext := flattenNext_eq_flatMap newLine (depth + 1) next
    simp [flattenAt, nodesAt, outlineLine, hnext]

theorem flattenNext_eq_flatMap (newLine : Text) : ∀ (depth : Nat) (next : List Message),
    flattenNext newLine depth next =
      (nodesNext depth next).flatMap fun node ↦ newLine ++ outlineLine node
  | depth, [] => rfl
  | depth, m :: rest => by
    have hm := flattenAt_eq_flatMap newLine depth m
    have hrest := flattenNext_eq_flatMap newLine depth rest
    rw [flattenNext, hm, hrest, nodesNext, List.flatMap_append]

end

/-- A message is written out node by node, and each node but the first begins a new line. -/
theorem flatten_eq_flatMap (newLine : Text) (m : Message) :
    m.flatten newLine = m.head ++
      (nodesNext 1 m.elaborations).flatMap fun node ↦ newLine ++ outlineLine node := by
  rw [flatten, flattenAt_eq, flattenNext_eq_flatMap]

theorem nodes_eq (m : Message) : m.nodes = (0, m.head) :: nodesNext 1 m.elaborations :=
  nodesAt_eq 0 m

theorem outlineLine_zero (t : Text) : outlineLine (0, t) = t := rfl

theorem lineCount_outlineLine (node : Nat × Text) :
    lineCount (outlineLine node) = lineCount node.2 := by
  have hblanks : '\n' ∉ List.replicate (2 * node.1) ' ' := by simp
  rw [lineCount, outlineLine, lineFeeds_append, lineFeeds_of_notMem hblanks, Nat.zero_add,
    lineCount]

/-- The number of lines of a message that is written out with line feeds. -/
def height (m : Message) : Nat := (m.nodes.map fun node ↦ lineCount node.2).sum

theorem lineCount_flatten (m : Message) : lineCount (m.flatten ['\n']) = m.height := by
  have hnext (next : List (Nat × Text)) :
      lineFeeds (next.flatMap fun node ↦ ['\n'] ++ outlineLine node) =
        (next.map fun node ↦ lineCount node.2).sum := by
    induction next with
    | nil => rfl
    | cons node rest ih =>
      have hline : lineFeeds (['\n'] ++ outlineLine node) = lineCount node.2 := by
        rw [← lineCount_outlineLine, lineFeeds_append, Nat.add_comm]
        rfl
      rw [List.flatMap_cons, lineFeeds_append, hline, ih, List.map_cons, List.sum_cons]
  rw [flatten_eq_flatMap, lineCount, lineFeeds_append, hnext, height, nodes_eq, List.map_cons,
    List.sum_cons]
  exact Nat.add_right_comm _ _ _

/-- A message keeps to one line when it has no elaborations, and its text no line feed. -/
theorem height_eq_one_iff (m : Message) :
    m.height = 1 ↔ m.elaborations = [] ∧ '\n' ∉ m.head := by
  rw [height, nodes_eq, List.map_cons, List.sum_cons]
  show lineFeeds m.head + 1 + _ = 1 ↔ _
  cases m.elaborations with
  | nil =>
    rw [nodesNext, List.map_nil, List.sum_nil, Nat.add_zero, Nat.add_eq_right,
      and_iff_right rfl]
    exact List.count_eq_zero
  | cons first rest =>
    rw [nodesNext, nodesAt_eq, List.cons_append, List.map_cons, List.sum_cons]
    refine iff_of_false (fun h ↦ ?_) fun h ↦ List.cons_ne_nil _ _ h.1
    rw [lineCount] at h
    omega

/-- A message whose texts are lines of an outline: they have no line feed, and do not begin with a
blank. -/
def IsOutline (m : Message) : Prop :=
  ∀ node ∈ m.nodes, '\n' ∉ node.2 ∧ node.2.head? ≠ some ' '

instance : DecidablePred IsOutline := fun m ↦
  inferInstanceAs (Decidable (∀ node ∈ m.nodes, '\n' ∉ node.2 ∧ node.2.head? ≠ some ' '))

/-- An outline has one line for each node. -/
theorem lines_flatten (h : m.IsOutline) :
    lines (m.flatten ['\n']) = m.nodes.map outlineLine := by
  have hlines : ∀ node ∈ m.nodes, '\n' ∉ outlineLine node := by
    intro node hnode
    simp [outlineLine, (h node hnode).1]
  rw [nodes_eq] at hlines ⊢
  obtain ⟨hhead, hnext⟩ := List.forall_mem_cons.mp hlines
  rw [flatten_eq_flatMap, List.map_cons, outlineLine_zero]
  exact lines_append_flatMap hhead hnext

/-! ## Reading an outline -/

/-- The node of a line: its depth is told by the blanks in front. -/
def nodeOf (line : Text) : Nat × Text :=
  ((line.takeWhile (· = ' ')).length / 2, line.dropWhile (· = ' '))

theorem nodeOf_outlineLine {node : Nat × Text} (h : node.2.head? ≠ some ' ') :
    nodeOf (outlineLine node) = node := by
  have hblanks : ∀ c ∈ List.replicate (2 * node.1) ' ', decide (c = ' ') = true := by simp
  have htext : ∀ c ∈ node.2.head?, ¬ decide (c = ' ') = true := by
    rintro c hc hblank
    exact h (of_decide_eq_true hblank ▸ hc)
  rw [nodeOf, outlineLine, takeWhile_append_of_head? hblanks htext,
    dropWhile_append_of_head? hblanks htext, List.length_replicate,
    Nat.mul_div_cancel_left _ Nat.two_pos]

/-- The nodes of a message are read back from its outline. -/
theorem map_nodeOf_lines_flatten (h : m.IsOutline) :
    (lines (m.flatten ['\n'])).map nodeOf = m.nodes := by
  have hread : ∀ node ∈ m.nodes, nodeOf (outlineLine node) = node := fun node hnode ↦
    nodeOf_outlineLine (h node hnode).2
  rw [lines_flatten h, List.map_map]
  exact (List.map_congr_left hread).trans (List.map_id _)

mutual

theorem le_of_mem_nodesAt : ∀ (depth : Nat) (m : Message), ∀ node ∈ nodesAt depth m, depth ≤ node.1
  | depth, text t, node, h => by
    obtain rfl := List.mem_singleton.mp h
    exact Nat.le_refl depth
  | depth, chain t next, node, h => by
    rcases List.mem_cons.mp h with rfl | hnext
    · exact Nat.le_refl depth
    · exact Nat.le_of_succ_le (le_of_mem_nodesNext (depth + 1) next node hnext)

theorem le_of_mem_nodesNext : ∀ (depth : Nat) (next : List Message),
    ∀ node ∈ nodesNext depth next, depth ≤ node.1
  | depth, [], node, h => absurd h List.not_mem_nil
  | depth, m :: rest, node, h => by
    rcases List.mem_append.mp h with hm | hrest
    · exact le_of_mem_nodesAt depth m node hm
    · exact le_of_mem_nodesNext depth rest node hrest

end

theorem nodesNext_cons (depth : Nat) (m : Message) (rest : List Message) :
    nodesNext depth (m :: rest) =
      (depth, m.head) :: (nodesNext (depth + 1) m.elaborations ++ nodesNext depth rest) := by
  rw [nodesNext, nodesAt_eq, List.cons_append]

theorem fst_of_mem_head?_nodesNext {node : Nat × Text} (h : node ∈ (nodesNext depth next).head?) :
    node.1 = depth := by
  cases next with
  | nil => exact absurd h (by simp [nodesNext])
  | cons m rest =>
    rw [nodesNext_cons] at h
    rw [← Option.some.inj h]

/-- The nodes below a message end where one comes that is as deep as the message. -/
theorem nodesNext_append_inj {rest rest' : List Message}
    (h : nodesNext (depth + 1) next ++ nodesNext depth rest =
      nodesNext (depth + 1) next' ++ nodesNext depth rest') :
    nodesNext (depth + 1) next = nodesNext (depth + 1) next' ∧
      nodesNext depth rest = nodesNext depth rest' := by
  have hbelow (list : List Message) : ∀ node ∈ nodesNext (depth + 1) list,
      decide (depth < node.1) = true := fun node hnode ↦
    decide_eq_true (le_of_mem_nodesNext (depth + 1) list node hnode)
  have hbeside (list : List Message) : ∀ node ∈ (nodesNext depth list).head?,
      ¬ decide (depth < node.1) = true := by
    intro node hnode
    rw [fst_of_mem_head?_nodesNext hnode]
    simp
  exact append_inj_of_head? (hbelow next) (hbeside rest) (hbelow next') (hbeside rest') h

/-- The nodes determine the messages that they are the nodes of. -/
theorem chainedNext_eq_of_nodesNext_eq (h : nodesNext depth next = nodesNext depth next') :
    chainedNext next = chainedNext next' := by
  induction hlength : (nodesNext depth next).length using Nat.strongRecOn
    generalizing depth next next' with
  | ind length ih =>
    cases next with
    | nil =>
      cases next' with
      | nil => rfl
      | cons m' rest' =>
        rw [nodesNext_cons] at h
        exact absurd h.symm (List.cons_ne_nil _ _)
    | cons m rest =>
      rw [nodesNext_cons] at h hlength
      rw [List.length_cons, List.length_append] at hlength
      cases next' with
      | nil => exact absurd h (List.cons_ne_nil _ _)
      | cons m' rest' =>
        rw [nodesNext_cons, List.cons.injEq] at h
        obtain ⟨hhead, hbehind⟩ := h
        obtain ⟨hbelow, hbeside⟩ := nodesNext_append_inj hbehind
        have helaborations := ih _ (by omega) hbelow rfl
        have hrest := ih _ (by omega) hbeside rfl
        rw [chainedNext, chainedNext, chained_eq m, chained_eq m', helaborations, hrest,
          (Prod.mk.inj hhead).2]

theorem chained_eq_of_nodes_eq (h : m.nodes = m'.nodes) : m.chained = m'.chained := by
  rw [nodes_eq, nodes_eq, List.cons.injEq] at h
  rw [chained_eq m, chained_eq m', (Prod.mk.inj h.1).2, chainedNext_eq_of_nodesNext_eq h.2]

mutual

theorem flattenAt_chained (newLine : Text) : ∀ (depth : Nat) (m : Message),
    flattenAt newLine depth m.chained = flattenAt newLine depth m
  | _, text t => List.append_nil t
  | depth, chain t next => congrArg (t ++ ·) (flattenNext_chainedNext newLine (depth + 1) next)

theorem flattenNext_chainedNext (newLine : Text) : ∀ (depth : Nat) (next : List Message),
    flattenNext newLine depth (chainedNext next) = flattenNext newLine depth next
  | depth, [] => rfl
  | depth, m :: rest => by
    rw [chainedNext, flattenNext, flattenNext, flattenAt_chained newLine depth m,
      flattenNext_chainedNext newLine depth rest]

end

/-- An outline has a line for each node in pre-order: two blanks for each node above it, and its
text. Two messages have one outline exactly when they are the same but for chains without
elaborations, which may be texts. -/
theorem outline_eq_iff (m m' : Message) (h : m.IsOutline) (h' : m'.IsOutline) :
    lines (m.flatten ['\n']) =
        m.nodes.map (fun (depth, t) ↦ List.replicate (2 * depth) ' ' ++ t) ∧
      (m.flatten ['\n'] = m'.flatten ['\n'] ↔ m.chained = m'.chained) := by
  refine ⟨lines_flatten h, fun hflatten ↦ ?_, fun hchained ↦ ?_⟩
  · apply chained_eq_of_nodes_eq
    rw [← map_nodeOf_lines_flatten h, hflatten, map_nodeOf_lines_flatten h']
  · have hsame : flattenAt ['\n'] 0 m.chained = flattenAt ['\n'] 0 m'.chained := by rw [hchained]
    rwa [flattenAt_chained, flattenAt_chained] at hsame

/-- Below the first line stand an empty text with an elaboration, and an empty text beside it. -/
theorem outline_eq_of_empty_texts :
    let m := chain ['a'] [chain [] [text ['b']], text []]
    let m' := chain ['a'] [chain [] [chain ['b'] []], chain [] []]
    m.IsOutline ∧ m'.IsOutline ∧
      lines (m.flatten ['\n']) = ["a".toList, "  ".toList, "    b".toList, "  ".toList] ∧
      m.flatten ['\n'] = m'.flatten ['\n'] := by
  intro m m'
  have h : m.IsOutline := by decide
  have h' : m'.IsOutline := by decide
  obtain ⟨hlines, hsame⟩ := outline_eq_iff m m' h h'
  exact ⟨h, h', hlines, hsame.mpr rfl⟩

end FencedCode.Message
