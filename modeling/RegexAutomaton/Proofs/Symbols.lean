/-
The symbols that an automaton is made of.

They are those of the nodes of its pattern: no pass makes up a symbol, and neither does
the choice of guards. What a pattern is read as is legible, so all symbols of its
automaton belong to the alphabet of the pattern (`Automaton.has_of_compile`).
-/
import RegexAutomaton.Proofs.Legible
import RegexAutomaton.Proofs.LiteralRuns
import RegexAutomaton.Proofs.Rewriting
import RegexAutomaton.Proofs.States

namespace RegexAutomaton

/-- The symbols with which the ranges of a set start and end. -/
def CharSet.symbols (s : CharSet) : List Char := s.members.flatMap fun r => [r.lo, r.hi]

/-- The symbols that a kind of node holds. -/
def NodeKind.symbols : NodeKind → List Char
  | literal run => run
  | bracket set | collapsedStart set => set.symbols
  | _ => []

/-- The symbols that nodes hold. -/
def Node.symbols (nodes : List Node) : List Char := nodes.flatMap (·.kind.symbols)

/-- The symbols that a guard is made of. -/
def Guard.symbols : Guard → List Char
  | literal c => [c]
  | range lo hi => [lo, hi]
  | set s => s.symbols
  | run symbols => symbols
  | _ => []

/-- The symbols that an automaton is made of. -/
def Automaton.symbols (a : Automaton) : List Char := a.states.flatMap (·.guard.symbols)

theorem append_subset_append {α : Type} {l l' r r' : List α} (hl : l ⊆ l') (hr : r ⊆ r') : l ++ r ⊆ l' ++ r' :=
  List.append_subset.2 ⟨List.subset_append_of_subset_left _ hl, List.subset_append_of_subset_right _ hr⟩

namespace Node

@[simp] theorem symbols_cons (node : Node) (nodes : List Node) :
    symbols (node :: nodes) = node.kind.symbols ++ symbols nodes := List.flatMap_cons

@[simp] theorem symbols_append (left right : List Node) : symbols (left ++ right) = symbols left ++ symbols right :=
  List.flatMap_append

theorem symbols_congr {nodes nodes' : List Node} (h : nodes.map (·.kind) = nodes'.map (·.kind)) :
    symbols nodes = symbols nodes' := by
  have hkinds (nodes : List Node) : symbols nodes = (nodes.map (·.kind)).flatMap NodeKind.symbols :=
    (List.flatMap_map ..).symm
  rw [hkinds, hkinds, h]

theorem kind_symbols_subset {node : Node} {nodes : List Node} (h : node ∈ nodes) :
    node.kind.symbols ⊆ symbols nodes :=
  fun _ hc => List.mem_flatMap.2 ⟨node, h, hc⟩

end Node

/-! ## What passes do -/

theorem CharSet.symbols_union_subset (sets : List CharSet) : (union sets).symbols ⊆ sets.flatMap symbols := by
  unfold union
  split
  · exact List.nil_subset _
  · intro c hc
    obtain ⟨r, hr, hc⟩ := List.mem_flatMap.1 hc
    obtain ⟨set, hset, hr⟩ := List.mem_flatMap.1 (List.mem_eraseDups.1 hr)
    exact List.mem_flatMap.2 ⟨set, hset, List.mem_flatMap.2 ⟨r, hr, hc⟩⟩

namespace Collapse

theorem symbols_subset_of_choice? {kind : NodeKind} {set : CharSet} (h : choice? kind = some set) :
    set.symbols ⊆ kind.symbols := by
  rcases choice?_eq_some h with ⟨c, rfl, rfl⟩ | ⟨rfl, -⟩ | ⟨rfl, rfl⟩
  · intro d hd
    rcases List.mem_pair.1 hd with rfl | rfl <;> exact List.mem_singleton_self _
  · exact List.Subset.refl _
  · exact List.nil_subset _

theorem Choices.symbols_subset {nodes : List Node} {sets : List CharSet} (h : Choices nodes sets) :
    sets.flatMap CharSet.symbols ⊆ Node.symbols nodes := by
  induction h with
  | one hchoice =>
    simpa [Node.symbols] using symbols_subset_of_choice? hchoice
  | more hchoice hbar _ ih =>
    rw [List.flatMap_cons, Node.symbols_cons, Node.symbols_cons, hbar]
    exact append_subset_append (symbols_subset_of_choice? hchoice) ih

theorem Collapses.symbols_subset {nodes nodes' : List Node} (h : Collapses nodes nodes') :
    Node.symbols nodes' ⊆ Node.symbols nodes := by
  induction h with
  | nil => exact List.Subset.refl _
  | keep node _ ih =>
    simp only [Node.symbols_cons]
    exact append_subset_append (List.Subset.refl _) ih
  | @set start finish inner nodes nodes' sets length hstart hinner hfinish _ ih =>
    have hhollow : Node.symbols (inner.map hollow) = [] := by simp [Node.symbols, hollow, NodeKind.symbols]
    have hset : (CharSet.union sets).symbols ⊆ Node.symbols inner :=
      List.Subset.trans (CharSet.symbols_union_subset sets) hinner.symbols_subset
    simp only [Node.symbols_cons, Node.symbols_append, hhollow, hstart, hfinish, NodeKind.symbols, List.nil_append]
    exact append_subset_append hset ih

end Collapse

namespace Coalesce

theorem symbols_run_subset (nodes : List Node) : (run nodes).map (·.1) ⊆ Node.symbols nodes := by
  induction nodes with
  | nil => exact List.Subset.refl _
  | cons node rest ih =>
    rw [run]
    split
    · next c hlone =>
      rw [Node.symbols_cons, (lone?_eq_some hlone).1]
      exact List.cons_subset_cons c ih
    · exact List.nil_subset _

theorem symbols_rewrite_subset (inside : Bool) (nodes : List Node) :
    Node.symbols (rewrite inside nodes) ⊆ Node.symbols nodes := by
  induction inside, nodes using rewrite_induction with
  | nil => exact List.Subset.refl _
  | keep inside node rest _ ih =>
    rw [Node.symbols_cons, Node.symbols_cons]
    exact append_subset_append (List.Subset.refl _) ih
  | first node rest c hlone ih =>
    rw [Node.symbols_cons, Node.symbols_cons, (lone?_eq_some hlone).1]
    exact List.append_subset.2 ⟨List.cons_subset_cons c (symbols_run_subset rest),
      List.subset_append_of_subset_right _ ih⟩
  | later node rest c hlone ih =>
    rw [Node.symbols_cons, Node.symbols_cons]
    exact List.subset_append_of_subset_right _ ih

end Coalesce

/-- **No pass makes up a symbol.** -/
theorem Pass.symbols_runAll_subset (passes : List Pass) (nodes : List Node) :
    Node.symbols (runAll passes nodes) ⊆ Node.symbols nodes := by
  refine runAll_induction (motive := fun nodes' => Node.symbols nodes' ⊆ Node.symbols nodes)
    (fun nodes' h => ?collapse) (fun nodes' h => ?coalesce) (fun nodes' h => ?link) passes (List.Subset.refl _)
  case collapse => exact List.Subset.trans (Collapse.collapses_rewrite nodes').symbols_subset h
  case coalesce => exact List.Subset.trans (Coalesce.symbols_rewrite_subset false nodes') h
  case link =>
    rw [linkNodes, Node.symbols_congr (Outlook.map_kind_passAll .empty 0 nodes')]
    exact h

/-! ## From nodes to states -/

theorem Guard.symbols_subset_of_ofKind? {kind : NodeKind} {guard : Guard} (h : ofKind? kind = some guard) :
    guard.symbols ⊆ kind.symbols := by
  have hset (s : CharSet) : (ofSet s).symbols ⊆ s.symbols := by
    unfold ofSet
    split
    · exact List.nil_subset _
    · split
      · next r _ hmembers =>
        split <;> simp [symbols, CharSet.symbols, hmembers]
      · exact List.Subset.refl _
  have hrun (symbols : List Char) : (ofRun symbols).symbols ⊆ symbols := by
    unfold ofRun
    split <;> exact List.Subset.refl _
  cases kind <;> cases h <;> first | exact List.nil_subset _ | exact hset _ | exact hrun _

namespace Node

theorem guard_of_state? {nodes : List Node} {index : Nat} {s : State} (h : state? nodes index = some s) :
    ∃ node ∈ nodes, Guard.ofKind? node.kind = some s.guard := by
  obtain ⟨node, hnode, h⟩ := Option.bind_eq_some_iff.1 h
  obtain ⟨guard, hguard, h⟩ := Option.bind_eq_some_iff.1 h
  obtain rfl := Option.some.inj h
  exact ⟨node, List.mem_of_getElem? hnode, hguard⟩

end Node

namespace Automaton

/-- The guard of a state comes from a node, unless the state is final. -/
theorem guard_of_mem_states {list : NodeList} {s : State} (hs : s ∈ (ofNodeList list).states) :
    s.guard = .final ∨ ∃ node ∈ list.nodes, Guard.ofKind? node.kind = some s.guard := by
  rw [states_ofNodeList] at hs
  rcases List.mem_append.1 hs with hs | hs
  · obtain ⟨s', hs', rfl⟩ := List.mem_map.1 hs
    obtain ⟨index, -, hstate⟩ := List.mem_filterMap.1 hs'
    have hguard := Node.guard_of_state? hstate
    exact .inr hguard
  · rcases List.mem_pair.1 hs with rfl | rfl <;> exact .inl rfl

theorem symbols_ofNodeList_subset (list : NodeList) : (ofNodeList list).symbols ⊆ Node.symbols list.nodes := by
  intro c hc
  obtain ⟨s, hs, hc⟩ := List.mem_flatMap.1 hc
  rcases guard_of_mem_states hs with hfinal | ⟨node, hnode, hguard⟩
  · rw [hfinal] at hc
    cases hc
  · exact Node.kind_symbols_subset hnode (Guard.symbols_subset_of_ofKind? hguard hc)

end Automaton

/-! ## From a pattern to its nodes -/

namespace NodeKind

variable {encoding : Encoding} {kind : NodeKind}

/-- A kind of node as a pattern and the passes can give it. -/
def Legible (encoding : Encoding) : NodeKind → Prop
  | literal run => ∀ c ∈ run, encoding.Has c
  | bracket set => set.Legible encoding
  | collapsedStart set => set = .any ∨ set.Legible encoding
  | _ => True

theorem Legible.has (h : kind.Legible encoding) : ∀ c ∈ kind.symbols, encoding.Has c := by
  have hset {set : CharSet} (h : set.Legible encoding) : ∀ c ∈ set.symbols, encoding.Has c := by
    intro c hc
    obtain ⟨r, hr, hc⟩ := List.mem_flatMap.1 hc
    rcases List.mem_pair.1 hc with rfl | rfl
    · exact (h.has r hr).1
    · exact (h.has r hr).2
  cases kind with
  | literal run => exact h
  | bracket set => exact hset h
  | collapsedStart set =>
    rcases h with rfl | h
    · nofun
    · exact hset h
  | _ => nofun

theorem legible_ofItem (groups : List Nat) {item : Item} (h : ∀ t, item = .token t → t.Legible encoding) :
    (ofItem groups item).Legible encoding := by
  cases item with
  | token t =>
    have ht := h t rfl
    cases t with
    | atom a =>
      cases a with
      | literal c => exact fun d hd => List.mem_singleton.1 hd ▸ ht
      | bracket set => exact ht
      | dot => trivial
    | _ => trivial
  | alternationStart => trivial
  | alternationEnd => trivial

end NodeKind

variable {encoding : Encoding} {pattern : List Char}

/-- The nodes of a pattern are legible, as its tokens are. -/
theorem NodeList.legible_of_read {markers : Markers} {list : NodeList} (hpattern : ∀ d ∈ pattern, encoding.Has d)
    (h : read encoding markers pattern = .ok list) : ∀ node ∈ list.nodes, node.kind.Legible encoding := by
  obtain ⟨-, -, rfl⟩ := map_eq_ok_iff.1 h
  have htokens : ∀ t ∈ (tokens encoding pattern).pieces, t.value.Legible encoding :=
    Reader.forall_mem_pieces (fun _ _ _ _ _ => Token.legible_of_read) 0 0 hpattern
  have hitems : ∀ item ∈ markers.itemsOf (tokens encoding pattern), ∀ t, item.value = .token t →
      t.Legible encoding := by
    intro item hitem t hvalue
    have htoken : t ∈ (markers.itemsOf (tokens encoding pattern)).filterMap (·.value.token?) :=
      List.mem_filterMap.2 ⟨item, hitem, by rw [hvalue, Item.token?_token]⟩
    rw [Markers.itemsOf, Markers.tokens_weave] at htoken
    obtain ⟨piece, hpiece, rfl⟩ := List.mem_map.1 htoken
    exact htokens piece hpiece
  intro node hnode
  rcases List.mem_append.1 hnode with hnode | hnode
  · obtain ⟨item, hitem, groups, rfl⟩ := Node.exists_of_mem_ofItems hnode
    exact NodeKind.legible_ofItem groups (hitems item hitem)
  · rcases List.mem_pair.1 hnode with rfl | rfl <;> trivial

/-- The nodes of a pattern hold symbols of its alphabet only. -/
theorem NodeList.has_of_read {markers : Markers} {list : NodeList} (hpattern : ∀ d ∈ pattern, encoding.Has d)
    (h : read encoding markers pattern = .ok list) : ∀ c ∈ Node.symbols list.nodes, encoding.Has c := by
  intro c hc
  obtain ⟨node, hnode, hc⟩ := List.mem_flatMap.1 hc
  exact (legible_of_read hpattern h node hnode).has c hc

/-- **All symbols of an automaton belong to the alphabet of its pattern.** -/
theorem Automaton.has_of_compile {options : Options} {a : Automaton} (hpattern : ∀ d ∈ pattern, encoding.Has d)
    (h : compile encoding pattern options = .ok a) : ∀ c ∈ a.symbols, encoding.Has c := by
  obtain ⟨list, hparse, rfl⟩ := exists_parse_of_compile h
  obtain ⟨list', hread, rfl⟩ := map_eq_ok_iff.1 hparse
  intro c hc
  exact NodeList.has_of_read hpattern hread c
    (Pass.symbols_runAll_subset _ _ (Automaton.symbols_ofNodeList_subset _ hc))

end RegexAutomaton
