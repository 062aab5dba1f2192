/-
The states of an automaton and the nodes that they come from.

The nodes that bear a state are numbered in order, and the number of a node is
the place of its state (`getElem?_states`), so links between nodes and links
between states lead to the same places.
-/
import RegexAutomaton.Compile
import RegexAutomaton.Proofs.Linking

namespace RegexAutomaton

/-- The state to go on with after a state and, if it opens a group, after the
group. -/
def State.continuation (s : State) : Nat := if s.flags.opensGroup then s.close else s.onMatch

namespace Node

variable {nodes : List Node} {index index' : Nat} {node : Node} {s : State}

/-! ## Numbering the nodes -/

theorem rank_succ (nodes : List Node) (index : Nat) :
    rank nodes (index + 1) = rank nodes index + if nodes[index]?.any (·.kind.bearsState) then 1 else 0 := by
  unfold rank
  rw [List.take_add_one, List.countP_append]
  cases nodes[index]? <;> simp [List.countP_cons]

theorem rank_le (nodes : List Node) (h : index ≤ index') : rank nodes index ≤ rank nodes index' := by
  induction h with
  | refl => exact Nat.le_refl _
  | step _ ih =>
    rw [rank_succ]
    omega

/-- A node that bears a state comes before all that follow it. -/
theorem rank_lt (hnode : nodes[index]? = some node) (hbears : node.kind.bearsState = true)
    (h : index < index') : rank nodes index < rank nodes index' := by
  have hsucc : rank nodes (index + 1) = rank nodes index + 1 := by
    rw [rank_succ, hnode]
    simp [hbears]
  have hle : rank nodes (index + 1) ≤ rank nodes index' := rank_le nodes h
  omega

theorem rank_lt_length (hnode : nodes[index]? = some node) (hbears : node.kind.bearsState = true) :
    rank nodes index < rank nodes nodes.length :=
  rank_lt hnode hbears (List.getElem?_eq_some_iff.1 hnode).1

theorem length_filterMap_state? (nodes : List Node) (index : Nat) :
    ((List.range index).filterMap (state? nodes)).length = rank nodes index := by
  induction index with
  | zero => rfl
  | succ index ih =>
    rw [List.range_succ, List.filterMap_append, List.length_append, ih, rank_succ]
    cases hnode : nodes[index]? with
    | none =>
      have hstate : state? nodes index = none := by simp [state?, hnode]
      simp [hstate]
    | some node =>
      have hstate := isSome_state? hnode
      cases hs : state? nodes index with
      | none =>
        rw [hs] at hstate
        simp [hs, ← hstate]
      | some s =>
        rw [hs] at hstate
        simp [hs, ← hstate]

/-! ## What the states are read off -/

/-- A change to nodes that leaves alone what the states are read off. -/
structure KeepsStates (f : Node → Node) : Prop where
  kind (node : Node) : (f node).kind = node.kind
  links (node : Node) (h : node.kind.bearsState = true) : (f node).next = node.next ∧
    (f node).group = node.group ∧ (f node).endsGroup = node.endsGroup
  close (node : Node) (h : node.kind = .groupOpen) : (f node).close = node.close

namespace KeepsStates

variable {f : Node → Node}

theorem rank (h : KeepsStates f) (nodes : List Node) (index : Nat) :
    Node.rank (nodes.map f) index = Node.rank nodes index := by
  rw [Node.rank, ← List.map_take, List.countP_map, Node.rank]
  exact List.countP_congr fun node _ => by simp [h.kind]

theorem targetState (h : KeepsStates f) (nodes : List Node) (otherwise : Nat) (link : Option Nat) :
    Node.targetState (nodes.map f) otherwise link = Node.targetState nodes otherwise link := by
  have hstate : stateOf? (nodes.map f) = stateOf? nodes := by
    funext index
    simp only [stateOf?, h.rank, List.getElem?_map, Option.any_map, h.kind]
  rw [Node.targetState, hstate, Node.targetState]

theorem quantified (h : KeepsStates f) (index : Nat) (atom : Option Nat) (nodes : List Node) :
    Node.quantified index atom (nodes.map f) = Node.quantified index atom nodes := by
  induction nodes generalizing index atom with
  | nil => rfl
  | cons node rest ih => simp only [List.map_cons, Node.quantified, h.kind, ih]

theorem fallbacks (h : KeepsStates f) (books : List Book) (index : Nat) (nodes : List Node) :
    Book.fallbacks books index (nodes.map f) = Book.fallbacks books index nodes := by
  induction nodes generalizing books index with
  | nil => rfl
  | cons node rest ih => simp only [List.map_cons, Book.fallbacks, h.kind, ih]

theorem state? (h : KeepsStates f) (nodes : List Node) (index : Nat) :
    Node.state? (nodes.map f) index = Node.state? nodes index := by
  have hrepetition : repetitionOf (nodes.map f) index = repetitionOf nodes index := by
    rw [repetitionOf, h.quantified, repetitionOf]
  have hfallback : fallback? (nodes.map f) index = fallback? nodes index := by
    rw [fallback?, h.fallbacks, fallback?]
  cases hnode : nodes[index]? with
  | none => simp [Node.state?, hnode]
  | some node =>
    simp only [Node.state?, List.getElem?_map, hnode, Option.map_some, h.rank, h.targetState, List.length_map,
      hrepetition, hfallback, flags, h.kind, bind, Option.bind]
    cases hguard : Guard.ofKind? node.kind with
    | none => rfl
    | some guard =>
      have hbears : node.kind.bearsState = true := by
        rw [← Guard.isSome_ofKind?, hguard]
        rfl
      obtain ⟨hnext, hgroup, hends⟩ := h.links node hbears
      by_cases hopens : node.kind = .groupOpen
      · simp only [hnext, hgroup, hends, hopens, h.close node hopens]
      · simp only [hnext, hgroup, hends, if_neg hopens]

theorem states (h : KeepsStates f) (nodes : List Node) : Node.states (nodes.map f) = Node.states nodes := by
  rw [Node.states, funext (h.state? nodes), List.length_map, Node.states]

end KeepsStates

/-- **The number of a node is the place of its state.** -/
theorem getElem?_states (hs : state? nodes index = some s) : (states nodes)[rank nodes index]? = some s := by
  have hlt : index < nodes.length := by
    by_contra hge
    rw [state?, List.getElem?_eq_none (Nat.le_of_not_lt hge)] at hs
    cases hs
  obtain ⟨later, hlater⟩ := Nat.exists_eq_add_of_lt hlt
  rw [states, hlater, Nat.add_assoc, List.range_add, List.filterMap_append,
    List.getElem?_append_right (Nat.le_of_eq (length_filterMap_state? nodes index)),
    length_filterMap_state?, Nat.sub_self, List.range_succ_eq_map]
  simp [hs]

/-! ## The state of a node -/

theorem targetState_of_bears {otherwise : Nat} (hnode : nodes[index]? = some node)
    (hbears : node.kind.bearsState = true) : targetState nodes otherwise (some index) = rank nodes index := by
  simp [targetState, stateOf?, hnode, hbears]

/-- A link to what comes later leads to a later state, or out of the
pattern. -/
theorem rank_lt_targetState (hnode : nodes[index]? = some node) (hbears : node.kind.bearsState = true)
    {link : Option Nat} (hlink : ∀ c, link = some c → index < c) :
    rank nodes index < targetState nodes (rank nodes nodes.length) link := by
  unfold targetState stateOf?
  cases link with
  | none => exact rank_lt_length hnode hbears
  | some c =>
    rw [Option.bind_some]
    split
    · exact rank_lt hnode hbears (hlink c rfl)
    · exact rank_lt_length hnode hbears

/-- What the state of a node takes from the node. -/
structure GivesState (nodes : List Node) (node : Node) (s : State) : Prop where
  bearsState : node.kind.bearsState = true
  member : s.flags.member = node.group.isSome
  endsGroup : s.flags.endsGroup = node.endsGroup
  opensGroup : s.flags.opensGroup = (node.kind == .groupOpen)
  group : s.group = targetState nodes (rank nodes nodes.length + 1) node.group
  close : node.kind = .groupOpen → s.close = targetState nodes (rank nodes nodes.length) node.close
  continuation : s.continuation = targetState nodes (rank nodes nodes.length) node.continuation

theorem exists_state? (hnode : nodes[index]? = some node) (hbears : node.kind.bearsState = true) :
    ∃ s, state? nodes index = some s := by
  rw [← Option.isSome_iff_exists, isSome_state? hnode, hbears]

theorem givesState (hs : state? nodes index = some s) :
    ∃ node, nodes[index]? = some node ∧ node.GivesState nodes s := by
  cases hnode : nodes[index]? with
  | none => simp [state?, hnode] at hs
  | some node =>
    have hbears : node.kind.bearsState = true := by
      rw [← isSome_state? hnode, hs]
      rfl
    cases hguard : Guard.ofKind? node.kind with
    | none =>
      rw [← Guard.isSome_ofKind?, hguard] at hbears
      cases hbears
    | some guard =>
      simp only [state?, hnode, hguard, bind, Option.bind, Option.some.injEq] at hs
      subst hs
      refine ⟨node, rfl, hbears, rfl, rfl, rfl, rfl, fun hopens => if_pos hopens, ?_⟩
      by_cases hopens : node.kind = .groupOpen
      · simp [State.continuation, Node.continuation, State.closed, flags, hopens]
      · simp [State.continuation, Node.continuation, State.closed, flags, hopens]

end Node

/-! ## The states of an automaton -/

namespace Automaton

variable {list : NodeList} {index : Nat} {s : State}

theorem states_ofNodeList (list : NodeList) :
    (ofNodeList list).states = (Node.states list.nodes).map State.connected ++
      [(State.final (Node.rank list.nodes list.nodes.length)).looped,
        (State.final (Node.rank list.nodes list.nodes.length + 1)).looped] := by
  have hlen (states : List State) (a b : State) : (states ++ [a, b]).length - 2 = states.length := by
    simp
  rw [ofNodeList]
  simp only [connect, hlen, List.take_left, List.drop_left]
  rfl

/-- The state of a node stands where the node has its number. -/
theorem getElem?_of_state? (hs : Node.state? list.nodes index = some s) :
    (ofNodeList list).states[Node.rank list.nodes index]? = some s.connected := by
  have hplace := Node.getElem?_states hs
  rw [states_ofNodeList, List.getElem?_append_left, List.getElem?_map, hplace]
  · rfl
  · rw [List.length_map]
    exact (List.getElem?_eq_some_iff.1 hplace).1

/-- A node that bears a state has it in the place of its number. -/
theorem exists_state_of_bears {node : Node} (hnode : list.nodes[index]? = some node)
    (hbears : node.kind.bearsState = true) :
    ∃ s, (ofNodeList list).states[Node.rank list.nodes index]? = some s.connected ∧
      node.GivesState list.nodes s := by
  obtain ⟨s, hs⟩ := Node.exists_state? hnode hbears
  obtain ⟨node', hnode', hgives⟩ := Node.givesState hs
  obtain rfl : node = node' := Option.some.inj (hnode.symm.trans hnode')
  exact ⟨s, getElem?_of_state? hs, hgives⟩

/-- A state that belongs to a group comes from a node. -/
theorem exists_state?_of_member (hs : s ∈ (ofNodeList list).states) (hmember : s.flags.member = true) :
    ∃ index s', Node.state? list.nodes index = some s' ∧ s = s'.connected := by
  rw [states_ofNodeList, List.mem_append, List.mem_map] at hs
  rcases hs with ⟨s', hs', rfl⟩ | hs
  · rw [Node.states, List.mem_filterMap] at hs'
    obtain ⟨index, -, hs'⟩ := hs'
    exact ⟨index, s', hs', rfl⟩
  · rcases List.mem_cons.1 hs with rfl | hs
    · cases hmember
    · obtain rfl := List.mem_singleton.1 hs
      cases hmember

end Automaton

end RegexAutomaton
