/-
Where the states of a group go on.

In the nodes of a pattern the flag that a node ends its group says whether the
node goes on after the group, and so it does for states.
-/
import RegexAutomaton.Proofs.States

namespace RegexAutomaton

namespace NodeList

variable {encoding : Encoding} {pattern : List Char} {options : Options} {list : NodeList}

/-- The nodes of a pattern are linked nodes that lie in bodies. -/
theorem exists_laidOut (h : parse encoding pattern options = .ok list) :
    ∃ unlinked, list.nodes = linkNodes unlinked ∧ Node.LaidOut unlinked := by
  obtain ⟨p, -, -, rfl⟩ := parse_eq_ok_iff.1 h
  exact (Node.laidOut_of_phrase p pattern.length).of_options options

end NodeList

namespace Node.GoesOn

variable {list : NodeList} {g stop : Nat} {close : Option Nat} {node : Node}

/-- A node that does not end its group goes on before the group does. -/
theorem endsGroup_iff (h : node.GoesOn (BearsIn list.nodes) g close stop)
    (hstop : ∀ c, close = some c → stop ≤ c) : node.endsGroup = true ↔
      targetState list.nodes (rank list.nodes list.nodes.length) node.continuation =
        targetState list.nodes (rank list.nodes list.nodes.length) close := by
  cases h with
  | out hends hout => exact ⟨fun _ => by rw [hout], fun _ => hends⟩
  | on hends t ht hinside hlt =>
    obtain ⟨next, hnext, hbears, -⟩ := hinside
    have hbefore := rank_lt_targetState hnext hbears fun c hc => Nat.lt_of_lt_of_le hlt (hstop c hc)
    refine ⟨fun hends' => absurd (hends.symm.trans hends') Bool.false_ne_true, fun heq => ?_⟩
    rw [ht, targetState_of_bears hnext hbears] at heq
    omega

/-- A node that does not end its group goes on with a state of the group. -/
theorem exists_state (h : node.GoesOn (BearsIn list.nodes) g close stop)
    (hends : node.endsGroup = false) :
    ∃ t, (Automaton.ofNodeList list).states[targetState list.nodes (rank list.nodes list.nodes.length)
        node.continuation]? = some t ∧ t.flags.member = true ∧
      t.group = targetState list.nodes (rank list.nodes list.nodes.length + 1) (some g) := by
  cases h with
  | out hends' => exact absurd (hends.symm.trans hends') Bool.false_ne_true
  | on _ t ht hinside _ =>
    obtain ⟨next, hnext, hbears, hgroup⟩ := hinside
    obtain ⟨s, hs, hgives⟩ := Automaton.exists_state_of_bears hnext hbears
    refine ⟨s.connected, ?_, ?_, ?_⟩
    · rw [ht, targetState_of_bears hnext hbears]
      exact hs
    · show s.flags.member = true
      rw [hgives.member, hgroup]
      rfl
    · show s.group = _
      rw [hgives.group, hgroup]

end Node.GoesOn

/-- A state of a linked pattern that belongs to a group, next to the state
that the group starts with. -/
theorem Automaton.continuation_of_laidOut {nodes : List Node} (h : Node.LaidOut nodes) {list : NodeList}
    (hlist : list.nodes = linkNodes nodes) {s : State} (hs : s ∈ (ofNodeList list).states)
    (hmember : s.flags.member = true) :
    ∃ g, (ofNodeList list).states[s.group]? = some g ∧ g.flags.opensGroup = true ∧
      (s.flags.endsGroup = true ↔ s.continuation = g.close) ∧
      (s.flags.endsGroup = false → ∃ t, (ofNodeList list).states[s.continuation]? = some t ∧
        t.flags.member = true ∧ t.group = s.group) := by
  obtain ⟨index, s, hstate, rfl⟩ := exists_state?_of_member hs hmember
  obtain ⟨node, hnode, hgives⟩ := Node.givesState hstate
  obtain ⟨g, hgroup⟩ := Option.isSome_iff_exists.1 (hgives.member.symm.trans hmember)
  rw [hlist] at hnode
  obtain ⟨start, hstart, hkind, stop, hstop, hgoes⟩ := h.goesOn hnode hgives.bearsState hgroup
  rw [← hlist] at hstart hgoes
  have hbears : start.kind.bearsState = true := by
    rw [hkind]
    rfl
  obtain ⟨opening, hopening, hgives'⟩ := exists_state_of_bears hstart hbears
  refine ⟨opening.connected, ?_, ?_, ?_, ?_⟩
  · show (ofNodeList list).states[s.group]? = _
    rw [hgives.group, hgroup, Node.targetState_of_bears hstart hbears]
    exact hopening
  · show opening.flags.opensGroup = true
    rw [hgives'.opensGroup, hkind]
    rfl
  · show s.flags.endsGroup = true ↔ s.continuation = opening.close
    rw [hgives.endsGroup, hgives.continuation, hgives'.close hkind]
    exact hgoes.endsGroup_iff hstop
  · show s.flags.endsGroup = false → ∃ t, (ofNodeList list).states[s.continuation]? = some t ∧
      t.flags.member = true ∧ t.group = s.group
    rw [hgives.endsGroup, hgives.continuation, hgives.group, hgroup]
    exact hgoes.exists_state

/-- **A state ends its group exactly if it goes on after the group**, and one
that does not goes on with a state of the same group. -/
theorem continuation_of_member {encoding : Encoding} {pattern : List Char} {options : Options}
    {a : Automaton} (h : compile encoding pattern options = .ok a) {s : State} (hs : s ∈ a.states)
    (hmember : s.flags.member = true) :
    ∃ g, a.states[s.group]? = some g ∧ g.flags.opensGroup = true ∧
      (s.flags.endsGroup = true ↔ s.continuation = g.close) ∧
      (s.flags.endsGroup = false → ∃ t, a.states[s.continuation]? = some t ∧
        t.flags.member = true ∧ t.group = s.group) := by
  unfold compile at h
  split at h
  · next list hparse =>
    obtain rfl := Except.ok.inj h
    obtain ⟨nodes, hnodes, hlaidOut⟩ := NodeList.exists_laidOut hparse
    exact Automaton.continuation_of_laidOut hlaidOut hnodes hs hmember
  · cases h

theorem continuation_of_member_in_branch :
    ∃ a s, compile .unicode ['(', 'a', 'b', '|', 'c', ')', 'd'] {} = .ok a ∧ s ∈ a.states ∧
      s.flags.member = true ∧
      ∃ g, a.states[s.group]? = some g ∧ g.flags.opensGroup = true ∧
        (s.flags.endsGroup = true ↔ s.continuation = g.close) ∧
        (s.flags.endsGroup = false → ∃ t, a.states[s.continuation]? = some t ∧
          t.flags.member = true ∧ t.group = s.group) := by
  refine ⟨_, _, rfl, List.mem_cons_of_mem _ List.mem_cons_self, rfl, ?_⟩
  exact @continuation_of_member .unicode ['(', 'a', 'b', '|', 'c', ')', 'd'] {} _ rfl _
    (List.mem_cons_of_mem _ List.mem_cons_self) rfl

end RegexAutomaton
