/-
Passes in any order.

A list of passes that ends with linking gives the automaton that the options give
which ask for the rewriting done in it (`compile_of_passes`). Rewriting may be
repeated and done in any order, and links are not looked at in it
(`Pass.map_unlinked_runAll`). What linking leaves behind is set anew when the nodes
are linked again, but for the flag that a node ends its branch, which is right to
stay (`Outlook.settled_passAll`).
-/
import RegexAutomaton.Proofs.BranchEnds
import RegexAutomaton.Proofs.MarkedCheck
import RegexAutomaton.Proofs.States

namespace RegexAutomaton

/-! ## Passes without links -/

/-- The node without what linking adds to it. -/
def Node.unlinked (node : Node) : Node := { node with next := none, close := none, endsGroup := false }

namespace Collapse

theorem map_unlinked_rewrite (inside : Bool) (nodes : List Node) :
    (rewrite inside nodes).map Node.unlinked = rewrite inside (nodes.map Node.unlinked) := by
  induction nodes generalizing inside with
  | nil => cases inside <;> rfl
  | cons node rest ih =>
    have hkind : node.unlinked.kind = node.kind := rfl
    have hchoices := choices?_map (f := Node.unlinked) (fun _ => rfl) rest
    cases inside with
    | true =>
      rw [List.map_cons, rewrite, rewrite, hkind, ← ih, ← ih]
      split <;> rfl
    | false =>
      rcases rewrite_cons node rest with ⟨hnone, h⟩ | ⟨hstart, sets, finish, hsome, h⟩
      · rw [h, List.map_cons, List.map_cons, rewrite_kept, ih]
        exact fun hstart => by rw [hchoices, hnone hstart, Option.map_none]
      · rw [hsome, Option.map_some] at hchoices
        rw [h, List.map_cons, List.map_cons, rewrite_start (hkind.trans hstart) hchoices, ih]
        rfl

end Collapse

namespace Coalesce

theorem lone?_unlinked (node : Node) (rest : List Node) :
    lone? node.unlinked (rest.map Node.unlinked) = lone? node rest := by
  cases rest <;> rfl

theorem run_unlinked (nodes : List Node) : run (nodes.map Node.unlinked) = run nodes := by
  induction nodes with
  | nil => rfl
  | cons node rest ih =>
    rw [List.map_cons, run, run, lone?_unlinked, ih]
    rfl

theorem map_unlinked_rewrite (inside : Bool) (nodes : List Node) :
    (rewrite inside nodes).map Node.unlinked = rewrite inside (nodes.map Node.unlinked) := by
  induction nodes generalizing inside with
  | nil => rfl
  | cons node rest ih =>
    rw [List.map_cons, rewrite, rewrite, lone?_unlinked, run_unlinked, ← ih, ← ih]
    cases lone? node rest with
    | none => rfl
    | some c => cases inside <;> rfl

end Coalesce

theorem Outlook.map_unlinked_passAll (o : Outlook) (index : Nat) (nodes : List Node) :
    (o.passAll index nodes).1.map Node.unlinked = nodes.map Node.unlinked := by
  induction nodes generalizing index with
  | nil => rfl
  | cons node rest ih =>
    rw [passAll_cons]
    simp only [List.map_cons, ih]
    refine congrArg (· :: _) ?_
    generalize (o.passAll (index + 1) rest).2 = later
    obtain ⟨kind, offset, length, next, close, group, endsGroup⟩ := node
    cases kind <;> rfl

/-- The nodes rewritten in the ways that are asked for. -/
def Node.rewrite (collapses coalesces : Bool) (nodes : List Node) : List Node :=
  let collapsed := if collapses then collapse nodes else nodes
  if coalesces then coalesce collapsed else collapsed

namespace Node

theorem rewrite_collapse (collapses coalesces : Bool) (nodes : List Node) :
    rewrite collapses coalesces (collapse nodes) = rewrite true coalesces nodes := by
  cases collapses
  · rfl
  · simp only [rewrite, collapse_idem, if_true]

theorem rewrite_coalesce (collapses coalesces : Bool) (nodes : List Node) :
    rewrite collapses coalesces (coalesce nodes) = rewrite collapses true nodes := by
  cases coalesces <;> cases collapses <;> simp [rewrite, coalesce_idem, coalesce_collapse]

end Node

/-- **Of passes done one after the other only those that rewrite make a difference**,
and neither their order nor how often they are done. -/
theorem Pass.map_unlinked_runAll (passes : List Pass) (nodes : List Node) :
    (runAll passes nodes).map Node.unlinked =
      Node.rewrite (passes.contains .collapse) (passes.contains .coalesce) (nodes.map Node.unlinked) := by
  induction passes generalizing nodes with
  | nil => rfl
  | cons pass passes ih =>
    rw [runAll, List.foldl_cons, ← runAll, ih]
    cases pass with
    | collapse =>
      have hrun : (run collapse nodes).map Node.unlinked = RegexAutomaton.collapse (nodes.map Node.unlinked) :=
        Collapse.map_unlinked_rewrite false nodes
      rw [hrun, Node.rewrite_collapse]
      rfl
    | coalesce =>
      have hrun : (run coalesce nodes).map Node.unlinked = RegexAutomaton.coalesce (nodes.map Node.unlinked) :=
        Coalesce.map_unlinked_rewrite false nodes
      rw [hrun, Node.rewrite_coalesce]
      rfl
    | link =>
      have hrun : (run link nodes).map Node.unlinked = nodes.map Node.unlinked :=
        Outlook.map_unlinked_passAll ..
      rw [hrun]
      rfl

/-! ## Linking last -/

/-- The node with what a state is read off, and no other links. -/
def Node.settled (node : Node) : Node :=
  if node.kind.bearsState then { node with close := if node.kind = .groupOpen then node.close else none }
  else node.unlinked

theorem Node.keepsStates_settled : KeepsStates settled where
  kind node := by
    unfold settled
    split <;> rfl
  links node h := by simp [settled, h]
  close node h := by simp [settled, h, NodeKind.bearsState]

namespace Outlook

theorem pass_unlinked (o : Outlook) (index : Nat) (node : Node) :
    (o.pass index node.unlinked).2 = (o.pass index node).2 := by
  obtain ⟨kind, offset, length, next, close, group, endsGroup⟩ := node
  cases kind <;> rfl

theorem passAll_unlinked (o : Outlook) (index : Nat) (nodes : List Node) :
    (o.passAll index (nodes.map Node.unlinked)).2 = (o.passAll index nodes).2 := by
  induction nodes generalizing index with
  | nil => rfl
  | cons node rest ih => rw [List.map_cons, passAll_cons, passAll_cons, pass_unlinked, ih]

theorem settled_pass (o : Outlook) (index : Nat) {node : Node}
    (h : node.kind.bearsState = true → node.endsGroup = true → o.tails.ends node.kind = true) :
    (o.pass index node).1.settled = (o.pass index node.unlinked).1.settled := by
  cases hbears : node.kind.bearsState with
  | false =>
    have hidle : node.unlinked.kind.bearsState = false := hbears
    rw [pass_of_idle _ _ hbears, pass_of_idle _ _ hidle]
    simp [Node.settled, hbears, Node.unlinked]
  | true =>
    have hbears' : node.unlinked.kind.bearsState = true := hbears
    have hends : (o.pass index node).1.endsGroup = (o.pass index node.unlinked).1.endsGroup := by
      rw [endsGroup_pass _ _ hbears, endsGroup_pass _ _ hbears']
      show (node.endsGroup || _) = _
      cases hflag : node.endsGroup with
      | false => rfl
      | true => exact (h hbears hflag).symm
    have hrest : (o.pass index node).1.settled =
        { (o.pass index node.unlinked).1.settled with endsGroup := (o.pass index node).1.endsGroup } := by
      obtain ⟨kind, offset, length, next, close, group, endsGroup⟩ := node
      cases kind <;> first | rfl | cases hbears
    have hsame : (o.pass index node.unlinked).1.endsGroup = (o.pass index node.unlinked).1.settled.endsGroup :=
      ((Node.keepsStates_settled.links _ (by rwa [kind_pass])).2.2).symm
    rw [hrest, hends, hsame]

variable {o : Outlook} {nodes : List Node}

/-- **All that a state is read off is set anew**, whatever links there were before. -/
theorem settled_passAll (ho : o.tails = []) (h : Node.Timely nodes) (index : Nat) :
    (o.passAll index nodes).1.map Node.settled = (o.passAll index (nodes.map Node.unlinked)).1.map Node.settled := by
  induction nodes generalizing index with
  | nil => rfl
  | cons node rest ih =>
    obtain ⟨hnode, hrest⟩ := h
    have hhead : ((o.passAll (index + 1) rest).2.pass index node).1.settled =
        ((o.passAll (index + 1) rest).2.pass index node.unlinked).1.settled := by
      refine settled_pass _ index fun hbears hends => ?_
      rw [tails_passAll ho]
      exact (hnode hends).2 hbears
    simp only [List.map_cons, passAll_cons, passAll_unlinked, ih hrest, hhead]

end Outlook

/-- What is linked last gives the states that it gives without earlier links. -/
theorem Node.states_linkNodes_of_timely {nodes : List Node} (h : Timely nodes) :
    states (linkNodes nodes) = states (linkNodes (nodes.map unlinked)) := by
  rw [← keepsStates_settled.states, linkNodes, Outlook.settled_passAll rfl h, ← linkNodes,
    keepsStates_settled.states]

/-- **Passes that rewrite in the same ways give the same states**, if linking comes last. -/
theorem Pass.states_runAll {passes passes' : List Pass} {nodes : List Node} (h : Node.Timely nodes)
    (hcollapse : passes.contains .collapse = passes'.contains .collapse)
    (hcoalesce : passes.contains .coalesce = passes'.contains .coalesce) :
    Node.states (runAll (passes ++ [.link]) nodes) = Node.states (runAll (passes' ++ [.link]) nodes) := by
  have hstates (passes : List Pass) : Node.states (runAll (passes ++ [.link]) nodes) =
      Node.states (linkNodes ((runAll passes nodes).map Node.unlinked)) := by
    rw [runAll_append]
    exact Node.states_linkNodes_of_timely (timely_runAll passes h)
  rw [hstates, hstates, map_unlinked_runAll, map_unlinked_runAll, hcollapse, hcoalesce]

/-! ## Patterns -/

/-- The options that ask for the rewriting done in some passes. -/
def Options.ofPasses (passes : List Pass) : Options :=
  { collapse := some (passes.contains .collapse), coalesce := some (passes.contains .coalesce) }

theorem Options.exists_passes_eq (passes : List Pass) :
    ∃ asked : List Pass, (ofPasses passes).passes = asked ++ [.link] ∧
      asked.contains .collapse = passes.contains .collapse ∧
      asked.contains .coalesce = passes.contains .coalesce := by
  unfold ofPasses
  generalize passes.contains .collapse = collapses
  generalize passes.contains .coalesce = coalesces
  cases collapses <;> cases coalesces <;> exact ⟨_, rfl, rfl, rfl⟩

theorem NodeList.timely_ofItems (items : List (Spanned Item)) (stop : Nat) :
    Node.Timely (ofItems items stop).nodes := by
  have hitems (index : Nat) (groups : List Nat) :
      ∀ node ∈ Node.ofItems index groups items, node.endsGroup = false := by
    induction items generalizing index groups with
    | nil => nofun
    | cons item items ih => exact List.forall_mem_cons.2 ⟨rfl, ih _ _⟩
  refine Node.timely_of_not_endsGroup fun node hnode => ?_
  rcases List.mem_append.1 hnode with hnode | hnode
  · exact hitems 0 [] node hnode
  · simp only [List.mem_cons, List.not_mem_nil, or_false, or_self] at hnode
    rw [hnode]
    rfl

/-- Nothing but the states of a list of nodes is looked at. -/
theorem Automaton.ofNodeList_congr (list : NodeList) {nodes nodes' : List Node}
    (h : Node.states nodes = Node.states nodes') :
    ofNodeList { list with nodes } = ofNodeList { list with nodes := nodes' } := by
  have hrank (nodes : List Node) : Node.rank nodes nodes.length = (Node.states nodes).length :=
    (Node.length_filterMap_state? nodes nodes.length).symm
  simp only [ofNodeList, hrank, h]

/-- **The order of the passes, and how often each is done, make no difference to the
automaton**, if linking comes last: it is the one that the options give which ask for
the rewriting done in them. -/
theorem compile_of_passes {encoding : Encoding} {pattern : List Char} {list : NodeList}
    (h : NodeList.read encoding ((Markers.ofPattern? pattern).getD .empty) pattern = .ok list) (passes : List Pass) :
    compile encoding pattern (.ofPasses passes) = .ok (.ofNodeList (list.after (passes ++ [.link]))) := by
  have htimely : Node.Timely list.nodes := by
    rw [NodeList.read_eq] at h
    cases hcheck : Grammar.checkPattern encoding ((Markers.ofPattern? pattern).getD .empty) pattern with
    | error e =>
      rw [hcheck] at h
      cases h
    | ok u =>
      rw [hcheck] at h
      obtain rfl := Except.ok.inj h
      exact NodeList.timely_ofItems _ _
  obtain ⟨asked, hasked, hcollapse, hcoalesce⟩ := Options.exists_passes_eq passes
  have hparse : NodeList.parse encoding pattern (.ofPasses passes) = .ok (list.after (asked ++ [.link])) := by
    rw [NodeList.parse, h, hasked]
    rfl
  rw [compile, hparse]
  have hstates := Pass.states_runAll htimely hcollapse.symm hcoalesce.symm
  exact congrArg Except.ok (Automaton.ofNodeList_congr list hstates).symm

theorem compile_of_passes_linked_early :
    ∃ list, NodeList.read .unicode ((Markers.ofPattern? ['(', 'a', '|', 'b', ')', 'c', 'd']).getD .empty)
        ['(', 'a', '|', 'b', ')', 'c', 'd'] = .ok list ∧
      compile .unicode ['(', 'a', '|', 'b', ')', 'c', 'd'] (.ofPasses [.link, .coalesce, .link, .collapse]) =
        .ok (.ofNodeList (list.after ([.link, .coalesce, .link, .collapse] ++ [.link]))) :=
  ⟨_, rfl, compile_of_passes rfl [.link, .coalesce, .link, .collapse]⟩

end RegexAutomaton
