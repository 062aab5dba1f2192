/-
The wiring of an automaton.

Ids are places, matching and falling back lead to the right, a group is left to
the right and returned to by its own states only: `Automaton.WellWired`. Every
automaton of a pattern is wired like this, with any markers and any passes
(`wellWired_ofNodeList`). Links between nodes carry over to states because the
nodes are numbered in order, and that nodes are linked in this way is
`Node.Wired`.
-/
import RegexAutomaton.Proofs.FailLinks
import RegexAutomaton.Proofs.GroupStack
import RegexAutomaton.Proofs.Relinking

namespace RegexAutomaton

theorem Guard.ofKind?_eq_group_iff {kind : NodeKind} : Guard.ofKind? kind = some .group ↔ kind = .groupOpen := by
  have hset (set : CharSet) : Guard.ofSet set ≠ .group := by
    unfold Guard.ofSet
    split
    · exact nofun
    · split
      · split <;> exact nofun
      · exact nofun
  have hrun (symbols : List Char) : Guard.ofRun symbols ≠ .group := by
    unfold Guard.ofRun
    split <;> exact nofun
  cases kind with
  | groupOpen => exact ⟨fun _ => rfl, fun _ => rfl⟩
  | literal run => exact ⟨fun h => absurd (Option.some.inj h) (hrun run), nofun⟩
  | bracket set => exact ⟨fun h => absurd (Option.some.inj h) (hset set), nofun⟩
  | collapsedStart set => exact ⟨fun h => absurd (Option.some.inj h) (hset set), nofun⟩
  | _ => exact ⟨nofun, nofun⟩

namespace State

/-- One of the ways out of the state leads to the given one. -/
def ExitsTo (s : State) (t : Nat) : Prop := s.primary = .goto t ∨ s.failed = .goto t ∨ s.lookahead = .goto t

variable {s : State} {t : Nat}

theorem eq_of_target {exit : Exit} (hallow : s.flags.Allow exit) (h : s.target exit = .goto t) :
    t = s.id ∨ t = s.onMatch ∨ s.flags.member = true ∧ t = s.group ∨ s.flags.opensGroup = true ∧ t = s.close := by
  cases exit with
  | self => exact .inl (Transition.goto.inj h).symm
  | next => exact .inr (.inl (Transition.goto.inj h).symm)
  | parent => exact .inr (.inr (.inl ⟨hallow.parent rfl, (Transition.goto.inj h).symm⟩))
  | close => exact .inr (.inr (.inr ⟨hallow.close rfl, (Transition.goto.inj h).symm⟩))
  | halt => cases h

/-- A way out leads along a link that the flags turn on, or stays in the state. -/
theorem eq_of_exitsTo (h : s.connected.ExitsTo t) :
    t = s.id ∨ t = s.onMatch ∨ s.flags.member = true ∧ t = s.group ∨ s.flags.opensGroup = true ∧ t = s.close := by
  rcases h with h | h | h
  · exact eq_of_target s.flags.allow_primary h
  · exact eq_of_target s.flags.allow_failed h
  · exact eq_of_target s.flags.allow_lookahead h

end State

/-! ## Where the links of nodes lead -/

namespace Node

variable {nodes : List Node} {node : Node} {opened depth index t otherwise : Nat} {link : Option Nat} {s : State}

theorem le_of_bearer? (h : bearer? depth index nodes = some t) : index ≤ t := by
  induction nodes generalizing depth index with
  | nil => cases h
  | cons node rest ih =>
    have hlater {depth : Nat} (h : bearer? depth (index + 1) rest = some t) : index ≤ t := Nat.le_of_succ_le (ih h)
    simp only [bearer?] at h
    split at h
    · exact hlater h
    · split at h
      · cases h
      · exact hlater h
    · split at h
      · exact Nat.le_of_eq (Option.some.inj h)
      · exact hlater h

theorem le_of_nextBranch? (h : nextBranch? opened depth index nodes = some t) : index ≤ t := by
  induction nodes generalizing opened depth index with
  | nil => cases h
  | cons node rest ih =>
    have hlater {opened depth : Nat} (h : nextBranch? opened depth (index + 1) rest = some t) : index ≤ t :=
      Nat.le_of_succ_le (ih h)
    simp only [nextBranch?] at h
    split at h
    · exact hlater h
    · split at h
      · exact hlater h
      · exact hlater h
    · split at h
      · exact Nat.le_of_succ_le (le_of_bearer? h)
      · exact hlater h
    · exact hlater h

/-- A node falls back to the right. -/
theorem lt_of_fallback? (hnode : nodes[index]? = some node) (hbears : node.kind.bearsState = true)
    (h : fallback? nodes index = some t) : index < t := by
  rw [fallback?_eq hnode hbears] at h
  exact le_of_nextBranch? h

theorem targetState_cases (nodes : List Node) (otherwise : Nat) (link : Option Nat) :
    targetState nodes otherwise link = otherwise ∨ ∃ t node, link = some t ∧ nodes[t]? = some node ∧
      node.kind.bearsState = true ∧ targetState nodes otherwise link = rank nodes t := by
  cases hstate : link.bind (stateOf? nodes) with
  | none => exact .inl (by rw [targetState, hstate, Option.getD_none])
  | some k =>
    obtain ⟨t, rfl, ht⟩ := Option.bind_eq_some_iff.1 hstate
    obtain ⟨node, hnode, hbears, rfl⟩ := exists_of_stateOf? ht
    exact .inr ⟨t, node, rfl, hnode, hbears, targetState_of_bears hnode hbears⟩

theorem targetState_le (hotherwise : rank nodes nodes.length ≤ otherwise) (link : Option Nat) :
    targetState nodes otherwise link ≤ otherwise := by
  rcases targetState_cases nodes otherwise link with h | ⟨t, node, -, hnode, hbears, h⟩
  · exact Nat.le_of_eq h
  · have := rank_lt_length hnode hbears
    omega

/-- A link to the right leads to a later state. -/
theorem lt_targetState (hotherwise : rank nodes nodes.length ≤ otherwise) (hnode : nodes[index]? = some node)
    (hbears : node.kind.bearsState = true) (hlink : ∀ t, link = some t → index < t) :
    rank nodes index < targetState nodes otherwise link := by
  rcases targetState_cases nodes otherwise link with h | ⟨t, node', ht, -, -, h⟩
  · have := rank_lt_length hnode hbears
    omega
  · rw [h]
    exact rank_lt hnode hbears (hlink t ht)

/-! ## The states in order -/

/-- What the state of a node takes from the node and its links. -/
structure Yields (nodes : List Node) (index : Nat) (node : Node) (s : State) : Prop where
  place : nodes[index]? = some node
  guard : Guard.ofKind? node.kind = some s.guard
  id : s.id = rank nodes index
  onMatch : s.onMatch = targetState nodes (rank nodes nodes.length) node.next
  onFail : s.onFail = targetState nodes (rank nodes nodes.length + 1) (fallback? nodes index)
  group : s.group = targetState nodes (rank nodes nodes.length + 1) node.group
  close : s.close =
    if node.kind = .groupOpen then targetState nodes (rank nodes nodes.length) node.close else rank nodes nodes.length
  flags : s.flags = flags nodes index node

theorem exists_yields (h : state? nodes index = some s) : ∃ node, Yields nodes index node s := by
  obtain ⟨node, hnode, h⟩ := Option.bind_eq_some_iff.1 h
  obtain ⟨guard, hguard, h⟩ := Option.bind_eq_some_iff.1 h
  obtain rfl := Option.some.inj h
  exact ⟨node, hnode, hguard, rfl, rfl, rfl, rfl, rfl, rfl⟩

namespace Yields

variable {groups : List Nat}

theorem bears (h : Yields nodes index node s) : node.kind.bearsState = true := by
  rw [← Guard.isSome_ofKind?, h.guard]
  rfl

theorem opensGroup_iff (h : Yields nodes index node s) : s.flags.opensGroup = true ↔ node.kind = .groupOpen := by
  rw [h.flags]
  exact beq_iff_eq

theorem member_eq (h : Yields nodes index node s) : s.flags.member = node.group.isSome := by
  rw [h.flags]
  rfl

theorem onMatch_bounds (h : Yields nodes index node s) (hwired : node.WiredAt groups index) :
    s.id < s.onMatch ∧ s.onMatch ≤ rank nodes nodes.length := by
  rw [h.id, h.onMatch]
  exact ⟨lt_targetState (Nat.le_refl _) h.place h.bears hwired.next, targetState_le (Nat.le_refl _) _⟩

theorem onFail_bounds (h : Yields nodes index node s) :
    s.id < s.onFail ∧ s.onFail ≤ rank nodes nodes.length + 1 := by
  rw [h.id, h.onFail]
  exact ⟨lt_targetState (Nat.le_add_right _ 1) h.place h.bears fun t ht => lt_of_fallback? h.place h.bears ht,
    targetState_le (Nat.le_add_right _ 1) _⟩

theorem close_bounds (h : Yields nodes index node s) (hwired : node.WiredAt groups index)
    (hopen : s.flags.opensGroup = true) : s.id < s.close ∧ s.close ≤ rank nodes nodes.length := by
  have hclose := h.close
  rw [if_pos (h.opensGroup_iff.1 hopen)] at hclose
  rw [h.id, hclose]
  exact ⟨lt_targetState (Nat.le_refl _) h.place h.bears hwired.close, targetState_le (Nat.le_refl _) _⟩

end Yields

theorem filterMap_state?_succ (nodes : List Node) (index : Nat) :
    (List.range (index + 1)).filterMap (state? nodes) =
      (List.range index).filterMap (state? nodes) ++ (state? nodes index).toList := by
  rw [List.range_succ, List.filterMap_append]
  cases hs : state? nodes index <;> simp [hs]

theorem map_id_states (nodes : List Node) : (states nodes).map (·.id) = List.range (rank nodes nodes.length) := by
  have hprefix (index : Nat) :
      ((List.range index).filterMap (state? nodes)).map (·.id) = List.range (rank nodes index) := by
    induction index with
    | zero => rfl
    | succ index ih =>
      have hlength := length_filterMap_state? nodes (index + 1)
      rw [filterMap_state?_succ, List.length_append, length_filterMap_state?] at hlength
      rw [filterMap_state?_succ, List.map_append, ih, ← hlength]
      cases hs : state? nodes index with
      | none => exact List.append_nil _
      | some s =>
        obtain ⟨node, hyields⟩ := exists_yields hs
        rw [Option.toList_some, List.length_singleton, List.range_succ, ← hyields.id]
        rfl
  exact hprefix nodes.length

/-- The state in a place comes from the node with that number. -/
theorem exists_state?_of_getElem? {k : Nat} (h : (states nodes)[k]? = some s) :
    ∃ index, state? nodes index = some s ∧ rank nodes index = k := by
  obtain ⟨index, -, hs⟩ := List.mem_filterMap.1 (List.mem_of_getElem? h)
  refine ⟨index, hs, ?_⟩
  obtain ⟨node, hyields⟩ := exists_yields hs
  have hid : ((states nodes).map (·.id))[k]? = some s.id := by rw [List.getElem?_map, h, Option.map_some]
  rw [map_id_states, List.getElem?_eq_some_iff] at hid
  obtain ⟨hlt, hid⟩ := hid
  rw [List.getElem_range] at hid
  rw [hid, hyields.id]

/-- As many states open a group as there are nodes that do. -/
theorem countP_opensGroup_states (nodes : List Node) :
    (states nodes).countP (·.flags.opensGroup) = nodes.countP (·.kind == .groupOpen) := by
  have hprefix (index : Nat) : ((List.range index).filterMap (state? nodes)).countP (·.flags.opensGroup) =
      (nodes.take index).countP (·.kind == .groupOpen) := by
    induction index with
    | zero => rfl
    | succ index ih =>
      rw [filterMap_state?_succ, List.countP_append, ih, List.take_add_one, List.countP_append]
      congr 1
      cases hs : state? nodes index with
      | none =>
        cases hnode : nodes[index]? with
        | none => rfl
        | some node =>
          have hidle := isSome_state? hnode
          rw [hs] at hidle
          have hkind : (node.kind == .groupOpen) = false := by
            refine beq_eq_false_iff_ne.2 fun hkind => ?_
            rw [hkind] at hidle
            cases hidle
          simp [hkind]
      | some s =>
        obtain ⟨node, hyields⟩ := exists_yields hs
        rw [hyields.place, Option.toList_some, Option.toList_some, List.countP_singleton, List.countP_singleton,
          hyields.flags]
        rfl
  have hall := hprefix nodes.length
  rwa [List.take_length] at hall

end Node

/-! ## How many groups there are -/

namespace Node

/-- If nodes of a kind come from an item and from no other, there are as many of them
as there are of the item. -/
theorem countP_ofItems {kind : NodeKind} {item : Item}
    (h : ∀ groups item', NodeKind.ofItem groups item' = kind ↔ item' = item) (index : Nat) (groups : List Nat)
    (items : List (Spanned Item)) :
    (ofItems index groups items).countP (·.kind == kind) = items.countP (·.value == item) := by
  have hkind (groups : List Nat) (item' : Item) : (NodeKind.ofItem groups item' == kind) = (item' == item) := by
    rw [Bool.eq_iff_iff, beq_iff_eq, beq_iff_eq, h]
  induction items generalizing index groups with
  | nil => rfl
  | cons item' items ih =>
    rw [ofItems, List.countP_cons, List.countP_cons, ih]
    show _ + ite ((NodeKind.ofItem groups item'.value == kind) = true) 1 0 = _
    rw [hkind]

theorem ofItem_eq_groupOpen_iff (groups : List Nat) (item : Item) :
    NodeKind.ofItem groups item = .groupOpen ↔ item = .token .groupOpen := by
  rcases item with (a | q | _ | _ | _ | _ | _) | _ | _
  case token.atom => cases a <;> exact ⟨nofun, nofun⟩
  case token.groupOpen => exact ⟨fun _ => rfl, fun _ => rfl⟩
  all_goals exact ⟨nofun, nofun⟩

theorem Replaces.countP_groupOpen {nodes nodes' : List Node} (h : List.Forall₂ Replaces nodes' nodes) :
    nodes'.countP (·.kind == .groupOpen) = nodes.countP (·.kind == .groupOpen) := by
  induction h with
  | nil => rfl
  | @cons node' node nodes' nodes hnode _ ih =>
    have hsame : (node'.kind == .groupOpen) = (node.kind == .groupOpen) := by
      rcases hnode.kind with heq | ⟨hinner', hinner⟩
      · rw [heq]
      · rw [beq_eq_false_iff_ne.2 hinner'.1, beq_eq_false_iff_ne.2 hinner.1]
    rw [List.countP_cons, List.countP_cons, ih, hsame]

end Node

theorem Pass.countP_groupOpen_runAll (passes : List Pass) (nodes : List Node) :
    (runAll passes nodes).countP (·.kind == .groupOpen) = nodes.countP (·.kind == .groupOpen) := by
  refine runAll_induction (motive := fun nodes' => nodes'.countP (·.kind == .groupOpen) =
      nodes.countP (·.kind == .groupOpen)) (fun nodes' h => ?collapse) (fun nodes' h => ?coalesce)
    (fun nodes' h => ?link) passes rfl
  case collapse => exact (Node.Replaces.countP_groupOpen (Collapse.collapses_rewrite nodes').replaces).trans h
  case coalesce => exact (Node.Replaces.countP_groupOpen (Coalesce.replaces_rewrite false nodes')).trans h
  case link =>
    have hkinds (nodes : List Node) : nodes.countP (·.kind == .groupOpen) =
        (nodes.map (·.kind)).countP (· == .groupOpen) := by
      rw [List.countP_map]
      rfl
    refine Eq.trans ?_ h
    rw [hkinds, hkinds nodes']
    exact congrArg _ (Outlook.map_kind_passAll ..)

/-! ## Wiring -/

namespace Automaton

/-- What a state that is not final is tied to. -/
structure WiresState (a : Automaton) (s : State) : Prop where
  onMatch : s.id < s.onMatch ∧ s.onMatch < a.size ∧ s.onMatch ≠ a.reject
  onFail : s.id < s.onFail ∧ s.onFail < a.size
  opensGroup : s.flags.opensGroup = true ↔ s.guard = .group
  close : if s.flags.opensGroup then s.id < s.close ∧ s.close ≤ a.accept else s.close = a.accept
  member : s.flags.member = true ↔ s.group ≠ a.reject
  group : s.flags.member = true →
    s.group < s.id ∧ ∃ entry, a.states[s.group]? = some entry ∧ entry.flags.opensGroup = true
  endsGroup : s.flags.endsGroup = true → s.flags.member = true
  exits : ∀ t, s.ExitsTo t → t < a.size ∧ t ≠ a.reject ∧ (t < s.id → t = s.group)

/-- What holds of every automaton of a pattern. -/
structure WellWired (a : Automaton) : Prop where
  size : 2 ≤ a.size
  ids : ∀ (i : Nat) (s : State), a.states[i]? = some s → s.id = i
  accept : a.states[a.accept]? = some (State.final a.accept).looped
  reject : a.states[a.reject]? = some (State.final a.reject).looped
  wires : ∀ (i : Nat) (s : State), i < a.accept → a.states[i]? = some s → a.WiresState s
  groups : a.states.countP (·.flags.opensGroup) = a.groupCount

variable {list : NodeList}

theorem size_ofNodeList (list : NodeList) : (ofNodeList list).size = Node.rank list.nodes list.nodes.length + 2 := by
  rw [size, states_ofNodeList, List.length_append, List.length_map, Node.states, Node.length_filterMap_state?]
  rfl

theorem accept_ofNodeList (list : NodeList) : (ofNodeList list).accept = Node.rank list.nodes list.nodes.length := by
  rw [accept, size_ofNodeList, Nat.add_sub_cancel]

/-- The group around a node of a wired list is opened by an earlier state. -/
theorem exists_entry_of_wired (h : Node.Wired [] 0 list.nodes) {index g : Nat} {node : Node}
    (hnode : list.nodes[index]? = some node) (hgroup : node.group = some g) (otherwise : Nat) :
    Node.targetState list.nodes otherwise node.group < Node.rank list.nodes index ∧
      ∃ entry, (ofNodeList list).states[Node.targetState list.nodes otherwise node.group]? = some entry ∧
        entry.flags.opensGroup = true := by
  obtain hmem | ⟨j, hj, rfl, start, hstart, hopens⟩ := h.exists_groupOpen hnode hgroup
  · cases hmem
  · have hbears : start.kind.bearsState = true := by
      rw [hopens]
      rfl
    obtain ⟨entry, hplace, hgives⟩ := exists_state_of_bears hstart hbears
    rw [hgroup, Nat.zero_add, Node.targetState_of_bears hstart hbears]
    exact ⟨Node.rank_lt hstart hbears hj, entry.connected, hplace, hgives.opensGroup.trans (beq_iff_eq.2 hopens)⟩

/-- **The states of wired nodes are wired.** -/
theorem wiresState_of_wired (h : Node.Wired [] 0 list.nodes) {index : Nat} {s : State}
    (hs : Node.state? list.nodes index = some s) : (ofNodeList list).WiresState s.connected := by
  obtain ⟨node, hyields⟩ := Node.exists_yields hs
  obtain ⟨groups, hwired⟩ := h.exists_wiredAt hyields.place
  rw [Nat.zero_add] at hwired
  have hlt : s.id < Node.rank list.nodes list.nodes.length :=
    hyields.id ▸ Node.rank_lt_length hyields.place hyields.bears
  have hmatch := hyields.onMatch_bounds hwired
  have hfail := hyields.onFail_bounds
  have hentry (hmem : s.flags.member = true) :
      s.group < s.id ∧ ∃ entry, (ofNodeList list).states[s.group]? = some entry ∧ entry.flags.opensGroup = true := by
    obtain ⟨g, hg⟩ := Option.isSome_iff_exists.1 (hyields.member_eq.symm.trans hmem)
    rw [hyields.id, hyields.group]
    exact exists_entry_of_wired h hyields.place hg _
  constructor
  case onMatch =>
    rw [size_ofNodeList, reject_ofNodeList]
    show s.id < s.onMatch ∧ s.onMatch < _ ∧ s.onMatch ≠ _
    omega
  case onFail =>
    rw [size_ofNodeList]
    show s.id < s.onFail ∧ s.onFail < _
    omega
  case opensGroup =>
    show s.flags.opensGroup = true ↔ s.guard = .group
    rw [hyields.opensGroup_iff, ← Guard.ofKind?_eq_group_iff, hyields.guard, Option.some.injEq]
  case close =>
    rw [accept_ofNodeList]
    show if s.flags.opensGroup then s.id < s.close ∧ s.close ≤ _ else s.close = _
    split
    · next hopen => exact hyields.close_bounds hwired hopen
    · next hopen => rw [hyields.close, if_neg fun hkind => hopen (hyields.opensGroup_iff.2 hkind)]
  case member =>
    rw [reject_ofNodeList]
    show s.flags.member = true ↔ s.group ≠ _
    cases hmem : s.flags.member with
    | true =>
      have := (hentry hmem).1
      exact ⟨fun _ => by omega, fun _ => rfl⟩
    | false =>
      have hgroup := hyields.group
      rw [hyields.member_eq, Option.isSome_eq_false_iff, Option.isNone_iff_eq_none] at hmem
      rw [hmem] at hgroup
      exact ⟨nofun, fun hne => absurd hgroup hne⟩
  case group => exact hentry
  case endsGroup =>
    show s.flags.endsGroup = true → s.flags.member = true
    rw [hyields.member_eq, hyields.flags]
    exact hwired.endsGroup
  case exits =>
    intro t ht
    rw [size_ofNodeList, reject_ofNodeList]
    show t < _ ∧ t ≠ _ ∧ (t < s.id → t = s.group)
    rcases State.eq_of_exitsTo ht with rfl | rfl | ⟨hmem, rfl⟩ | ⟨hopen, rfl⟩
    · omega
    · omega
    · have := (hentry hmem).1
      omega
    · have := hyields.close_bounds hwired hopen
      omega

/-- **The automaton of wired nodes is wired well**, if the number of its groups is
that of the nodes that open one. -/
theorem wellWired_of_wired (h : Node.Wired [] 0 list.nodes)
    (hcount : list.nodes.countP (·.kind == .groupOpen) = list.groupCount) : (ofNodeList list).WellWired := by
  have hlength : (Node.states list.nodes).length = Node.rank list.nodes list.nodes.length :=
    Node.length_filterMap_state? ..
  have hinner {i : Nat} {s : State} (hi : i < Node.rank list.nodes list.nodes.length)
      (hs : (ofNodeList list).states[i]? = some s) :
      ∃ index s', Node.state? list.nodes index = some s' ∧ Node.rank list.nodes index = i ∧ s = s'.connected := by
    rw [states_ofNodeList, List.getElem?_append_left (by rw [List.length_map, hlength]; exact hi),
      List.getElem?_map] at hs
    obtain ⟨s', hs', rfl⟩ := Option.map_eq_some_iff.1 hs
    obtain ⟨index, hstate, hrank⟩ := Node.exists_state?_of_getElem? hs'
    exact ⟨index, s', hstate, hrank, rfl⟩
  have hfinal (i : Nat) : (ofNodeList list).states[Node.rank list.nodes list.nodes.length + i]? =
      [(State.final (Node.rank list.nodes list.nodes.length)).looped,
        (State.final (Node.rank list.nodes list.nodes.length + 1)).looped][i]? := by
    rw [states_ofNodeList, List.getElem?_append_right (by rw [List.length_map, hlength]; omega), List.length_map,
      hlength, Nat.add_sub_cancel_left]
  constructor
  case size =>
    rw [size_ofNodeList]
    omega
  case accept =>
    rw [accept_ofNodeList]
    exact hfinal 0
  case reject =>
    rw [reject_ofNodeList]
    exact hfinal 1
  case ids =>
    intro i s hs
    by_cases hi : i < Node.rank list.nodes list.nodes.length
    · obtain ⟨index, s', hstate, rfl, rfl⟩ := hinner hi hs
      obtain ⟨node, hyields⟩ := Node.exists_yields hstate
      exact hyields.id
    · obtain ⟨k, rfl⟩ := Nat.exists_eq_add_of_le (Nat.le_of_not_lt hi)
      rw [hfinal] at hs
      match k, hs with
      | 0, hs | 1, hs =>
        rw [← Option.some.inj hs]
        rfl
  case wires =>
    intro i s hi hs
    rw [accept_ofNodeList] at hi
    obtain ⟨index, s', hstate, -, rfl⟩ := hinner hi hs
    exact wiresState_of_wired h hstate
  case groups =>
    rw [states_ofNodeList, List.countP_append, List.countP_map]
    exact (Node.countP_opensGroup_states list.nodes).trans hcount

/-- **Every automaton of a pattern is wired well**, with any markers and after any
passes. -/
theorem wellWired_ofNodeList {encoding : Encoding} {markers : Markers} {pattern : List Char} {list : NodeList}
    (h : NodeList.read encoding markers pattern = .ok list) (passes : List Pass) :
    (ofNodeList (list.after passes)).WellWired := by
  refine wellWired_of_wired (Pass.wired_runAll passes (Node.wired_of_read h)) ?_
  show (Pass.runAll passes list.nodes).countP _ = list.groupCount
  obtain ⟨-, -, rfl⟩ := map_eq_ok_iff.1 h
  rw [Pass.countP_groupOpen_runAll]
  show (Node.ofItems _ _ _ ++ _).countP _ = _
  rw [List.countP_append, Node.countP_ofItems Node.ofItem_eq_groupOpen_iff]
  rfl

/-- Markers may lie across the ends of groups. -/
theorem wellWired_ofNodeList_across :
    ∃ list, NodeList.read .unicode ⟨[0, 4], [3, 7, 9]⟩ ['a', '(', 'b', '|', '(', 'c', ')', ')', '*', 'd'] = .ok list ∧
      (ofNodeList (list.after [.collapse, .coalesce, .link])).WellWired := by
  refine ⟨_, rfl, ?_⟩
  exact @wellWired_ofNodeList .unicode ⟨[0, 4], [3, 7, 9]⟩ ['a', '(', 'b', '|', '(', 'c', ')', ')', '*', 'd'] _ rfl _

end Automaton

end RegexAutomaton
