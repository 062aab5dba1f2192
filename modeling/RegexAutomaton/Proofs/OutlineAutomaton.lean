/-
The automaton of an outline.

A whole pattern has its outline at the start of its list, and the states of
the automaton do not depend on places. So an automaton is known from the
outline of its pattern (`Automaton.ofNodeList_eq`), without its list of nodes.
-/
import RegexAutomaton.Proofs.OutlineSpots

namespace RegexAutomaton

namespace Outline

/-- The outline of a whole pattern lies at the start of the list. -/
theorem spot_top {o : Outline} (hsound : o.Sound) :
    ∃ later, Spot (linkNodes o.list) o (.top o.size) none none o.margin o.margin 0 later := by
  obtain ⟨front, back, hbody, hfront, -, hfrontIdle, hbackIdle, hdepth, hback⟩ :=
    exists_linkedBody_eq o none none 0
  rw [Nat.zero_add] at hbody
  have hlist : linkNodes o.list = front ++ (o.linked none none o.margin ++ (back ++ sentinels)) := by
    rw [linkNodes_list, hbody]
    simp
  have hlies : (linkNodes o.list).drop 0 = front ++ (o.linked none none o.margin ++ (back ++ sentinels)) :=
    hlist
  have hplace : o.margin = 0 + front.length := by rw [hfront, Nat.zero_add]
  refine ⟨back ++ sentinels, ?_, ?_, ?_, rfl, rfl, rfl, ?_, ?_, ?_, ?_⟩
  · have hdrop := drop_add_of_drop hlies
    rwa [← hplace] at hdrop
  · have hrank := Node.rank_add_of_drop hlies
    rwa [← hplace, hfrontIdle] at hrank
  · rw [Node.rank, List.take_length, hlist]
    simp only [List.countP_append, hfrontIdle, hbackIdle, countP_linked]
    simp [sentinels, Node.bare, NodeKind.bearsState, Setting.top]
  · have hnext := hback 0 (o.margin + o.length) sentinels
    rw [Nat.zero_add, Node.nextBranch?_zero] at hnext
    rw [hnext]
    rfl
  · have hdepthAt := Node.depthAt_add_of_drop hlies
    rw [← hplace, hdepth] at hdepthAt
    rw [hdepthAt, Node.depthAt, List.take_zero]
    exact Nat.zero_add _
  · intro hbarred
    simp [margin, hbarred]
  · intro x r _ _
    obtain ⟨atom, hquantified⟩ := quantified_body_of (quantified_linked hsound none none) 0
      (repeating_none o) sentinels
    have hsentinels : Node.quantified (0 + o.span) atom sentinels = [] := rfl
    rw [linkNodes_list, hquantified, hsentinels, List.append_nil, Nat.zero_add]

theorem states_linkNodes {o : Outline} (hsound : o.Sound) :
    Node.states (linkNodes o.list) = o.states (.top o.size) 0 := by
  obtain ⟨later, hspot⟩ := spot_top hsound
  obtain ⟨front, back, hbody, hfront, hback, hfrontIdle, hbackIdle, -, -⟩ :=
    exists_linkedBody_eq o none none 0
  rw [Nat.zero_add] at hbody
  have hlies : (linkNodes o.list).drop 0 = front ++ (o.linked none none o.margin ++ (back ++ sentinels)) := by
    show linkNodes o.list = _
    rw [linkNodes_list, hbody]
    simp
  have hend := drop_add_of_drop (drop_add_of_drop hlies)
  rw [hfront, length_linked, ← List.append_nil (back ++ sentinels)] at hend
  have hidleFront := Node.filterMap_state?_of_idle hlies hfrontIdle
  have hidleBack := Node.filterMap_state?_of_idle hend (by rw [List.countP_append, hbackIdle]; rfl)
  have hlength : (linkNodes o.list).length = front.length + (o.length + (back ++ sentinels).length) := by
    rw [linkNodes_list, List.length_append, length_linkedBody, List.length_append, hfront, hback, span]
    omega
  rw [Node.states, List.range_eq_range', hlength, ← List.range'_append_1, ← List.range'_append_1,
    List.filterMap_append, List.filterMap_append, hidleFront, Nat.zero_add, hfront]
  rw [Nat.zero_add] at hidleBack
  rw [hidleBack, hspot.states_of_spot hsound, List.nil_append, List.append_nil]

theorem rank_linkNodes (o : Outline) :
    Node.rank (linkNodes o.list) (linkNodes o.list).length = o.size := by
  rw [Node.rank, List.take_length, linkNodes_list, List.countP_append, countP_linkedBody]
  rfl

end Outline

/-! ## Places make no difference -/

namespace Node

theorem keepsStates_placeless : KeepsStates placeless where
  kind _ := rfl
  links _ _ := ⟨rfl, rfl, rfl⟩
  close _ _ := rfl

end Node

/-- The automaton with some states, given without their ways out. -/
def Automaton.ofStates (states : List State) (groupCount : Nat) (neverMatches : Bool) : Automaton :=
  { states := states.map State.connected ++
      [(State.final states.length).looped, (State.final (states.length + 1)).looped]
    groupCount, neverMatches }

@[simp] theorem Automaton.accept_ofStates (states : List State) (groupCount : Nat) (neverMatches : Bool) :
    (ofStates states groupCount neverMatches).accept = states.length := by
  simp [ofStates, accept, size]

/-- **The automaton of a pattern has the states of an outline.** -/
theorem Automaton.ofNodeList_eq {list : NodeList} {o : Outline} (hsound : o.Sound)
    (h : list.nodes.map Node.placeless = linkNodes o.list) :
    ofNodeList list = ofStates (o.states (.top o.size) 0) list.groupCount list.neverMatches := by
  have hstates : Node.states list.nodes = o.states (.top o.size) 0 := by
    rw [← Node.keepsStates_placeless.states, h, Outline.states_linkNodes hsound]
  have hrank : Node.rank list.nodes list.nodes.length = o.size := by
    rw [← Node.keepsStates_placeless.rank, ← Outline.rank_linkNodes, ← h, List.length_map]
  have hall := states_ofNodeList list
  rw [hstates, hrank] at hall
  rw [ofStates, Outline.length_states, ← hall]
  rfl

/-- The automaton that the options give a phrase, if the pattern ends at
`stop`. -/
def Phrase.automaton (p : Phrase) (stop : Nat) (options : Options) : Automaton :=
  .ofStates ((p.outline.rewritten options).states (.top (p.outline.rewritten options).size) 0)
    ((p.body 0 stop).countP (·.value == .token .groupOpen)) (Liveness.neverMatches (p.body 0 stop))

theorem Phrase.sound_outline_of_check {p : Phrase}
    (h : List.IsChain Role.Admits (.start :: (p.roles ++ [.finish]))) : p.outline.Sound :=
  sound_outline h (.inr rfl)

/-- **A pattern has an automaton exactly if its tokens are those of a phrase in
which no two neighbours refuse each other**, and then the outline of the phrase
tells the automaton. -/
theorem compile_eq_ok_iff {encoding : Encoding} {pattern : List Char} {options : Options} {a : Automaton} :
    compile encoding pattern options = .ok a ↔
      ∃ p : Phrase, (Token.read encoding).Reads 0 pattern p.tokens ∧
        List.IsChain Role.Admits (.start :: (p.roles ++ [.finish])) ∧
        a = p.automaton pattern.length options := by
  have hautomaton {p : Phrase} (hchain : List.IsChain Role.Admits (.start :: (p.roles ++ [.finish]))) :
      Automaton.ofNodeList ((NodeList.ofItems (p.body 0 pattern.length) pattern.length).after options.passes) =
        p.automaton pattern.length options :=
    Automaton.ofNodeList_eq (Outline.sound_rewritten options (Phrase.sound_outline_of_check hchain))
      (NodeList.placeless_after p pattern.length options)
  constructor
  · intro h
    obtain ⟨list, hparse, rfl⟩ := exists_parse_of_compile h
    obtain ⟨p, hp, hchain, rfl⟩ := NodeList.parse_eq_ok_iff.1 hparse
    exact ⟨p, hp, hchain, hautomaton hchain⟩
  · rintro ⟨p, hp, hchain, rfl⟩
    rw [compile, NodeList.parse_eq_ok_iff.2 ⟨p, hp, hchain, rfl⟩]
    exact congrArg Except.ok (hautomaton hchain)

end RegexAutomaton
