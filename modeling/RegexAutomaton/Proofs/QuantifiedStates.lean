/-
The states of a pattern, node by node.

The automaton of a pattern has a state for each node that bears one, in order. The state
belongs to that of the group around its node, and repeats as the quantifier right behind
the atom of its node asks for, in the nodes (`Node.Quantifies`) as in the text
(`Token.repetitionAt?`): at every quantifier the walk over the nodes (`Node.quantified`)
has the node whose atom comes right before it (`Node.mem_quantified_iff`).
-/
import RegexAutomaton.Proofs.IndexedCompile
import RegexAutomaton.Proofs.Legible
import RegexAutomaton.Proofs.QuantifierPlaces
import RegexAutomaton.Proofs.Wiring

namespace RegexAutomaton

/-! ## Counts in order -/

theorem Repetition.inOrder_once : once.InOrder := by
  rintro _ ⟨⟩
  exact Nat.le_refl 1

theorem Token.inOrder_of_read {encoding : Encoding} {offset width : Nat} {c : Char} {rest : List Char} {q : Quantifier}
    (h : read encoding offset c rest = .ok (.quantifier q, width)) : q.repetition.InOrder := by
  cases read_eq_ok_iff.1 h with
  | counted _ h => exact (Repetition.legible_of_read h).inOrder
  | star | plus =>
    intro most hmost
    cases hmost
  | question =>
    rintro _ ⟨⟩
    exact Nat.zero_le _

theorem Token.inOrder_of_repetitionAt? {encoding : Encoding} {pattern : List Char} {place : Nat} {r : Repetition}
    (h : repetitionAt? encoding pattern place = some r) : r.InOrder := by
  obtain ⟨q, htoken, rfl⟩ := repetitionAt?_eq_some_iff.1 h
  obtain ⟨c, rest, width, -, hread⟩ := at?_eq_some_iff.1 htoken
  exact inOrder_of_read hread

namespace Node

variable {nodes rest : List Node} {node : Node} {i j k t : Nat} {r : Repetition}

/-! ## The nodes that bear a state -/

theorem rank_cons_succ (node : Node) (rest : List Node) (j : Nat) :
    rank (node :: rest) (j + 1) = rank rest j + if node.kind.bearsState then 1 else 0 := by
  rw [rank, List.take_succ_cons, List.countP_cons, rank]

theorem exists_bearer_cons_iff {first : Nat} :
    (∃ j node', i = first + j ∧ (node :: rest)[j]? = some node' ∧ node'.kind.bearsState = true ∧
        rank (node :: rest) j = k) ↔
      (i = first ∧ node.kind.bearsState = true ∧ k = 0) ∨ ∃ j node', i = first + 1 + j ∧ rest[j]? = some node' ∧
        node'.kind.bearsState = true ∧ (rank rest j + if node.kind.bearsState then 1 else 0) = k := by
  constructor
  · rintro ⟨_ | j, node', rfl, hnode, hbears, hrank⟩
    · obtain rfl : node = node' := Option.some.inj hnode
      exact .inl ⟨rfl, hbears, hrank.symm⟩
    · exact .inr ⟨j, node', by omega, hnode, hbears, (rank_cons_succ node rest j).symm.trans hrank⟩
  · rintro (⟨rfl, hbears, rfl⟩ | ⟨j, node', rfl, hnode, hbears, hrank⟩)
    · exact ⟨0, node, rfl, rfl, hbears, rfl⟩
    · exact ⟨j + 1, node', by omega, hnode, hbears, (rank_cons_succ node rest j).trans hrank⟩

/-- The nodes that bear a state are numbered in order, with the first of all nodes at
index `first`. -/
theorem getElem?_bearers_iff (nodes : List Node) (first k i : Nat) :
    (((nodes.zipIdx first).filter (·.1.kind.bearsState)).map (·.2))[k]? = some i ↔
      ∃ j node, i = first + j ∧ nodes[j]? = some node ∧ node.kind.bearsState = true ∧ rank nodes j = k := by
  induction nodes generalizing first k with
  | nil => simp
  | cons node rest ih =>
    rw [exists_bearer_cons_iff, List.zipIdx_cons, List.filter_cons]
    cases hbears : node.kind.bearsState with
    | false =>
      rw [if_neg Bool.false_ne_true, ih]
      simp
    | true =>
      rw [if_pos rfl, List.map_cons]
      cases k with
      | zero =>
        rw [List.getElem?_cons_zero, Option.some.injEq, eq_comm]
        simp
      | succ k =>
        rw [List.getElem?_cons_succ, ih]
        simp

theorem getElem?_stateIndices_iff :
    (stateIndices nodes)[k]? = some i ↔
      ∃ node, nodes[i]? = some node ∧ node.kind.bearsState = true ∧ rank nodes i = k := by
  rw [stateIndices, getElem?_bearers_iff]
  simp

theorem length_stateIndices (nodes : List Node) : (stateIndices nodes).length = rank nodes nodes.length := by
  have hfst : nodes.zipIdx.map (·.1) = nodes := List.zipIdx_map_fst ..
  rw [stateIndices, List.length_map, ← List.countP_eq_length_filter, rank, List.take_length]
  conv_rhs => rw [← hfst, List.countP_map]
  rfl

/-! ## The walk over quantifiers -/

/-- The repetition that the node at an index asks for. -/
def repetitionAt? (nodes : List Node) (index : Nat) : Option Repetition :=
  (kindAt? nodes index).bind NodeKind.repetition?

theorem quantified_of_quantifier (h : node.kind.repetition? = some r) (index : Nat) (atom : Option Nat) :
    quantified index atom (node :: rest) = (atom.map (·, r)).toList ++ quantified (index + 1) atom rest := by
  cases hkind : node.kind <;> rw [hkind] at h
  case quantifier q =>
    obtain rfl := Option.some.inj h
    simp only [quantified, hkind]
  all_goals cases h

theorem quantified_of_not_quantifier (h : node.kind.repetition? = none) (index : Nat) (atom : Option Nat) :
    quantified index atom (node :: rest) = quantified (index + 1) ((node.kind.atom? index).or atom) rest := by
  cases hkind : node.kind <;> rw [hkind] at h
  case quantifier q => cases h
  all_goals
    simp only [quantified, hkind]
    rfl

theorem exists_atom_cons_iff {x index : Nat} :
    (∃ t kind, kindAt? (node :: rest) t = some kind ∧ kind.atom? (index + t) = some x ∧
        repetitionAt? (node :: rest) (t + 1) = some r) ↔
      (node.kind.atom? index = some x ∧ repetitionAt? rest 0 = some r) ∨ ∃ t kind, kindAt? rest t = some kind ∧
        kind.atom? (index + 1 + t) = some x ∧ repetitionAt? rest (t + 1) = some r := by
  have hplace (t : Nat) : index + (t + 1) = index + 1 + t := by omega
  constructor
  · rintro ⟨_ | t, kind, hkind, hatom, hnext⟩
    · obtain rfl : node.kind = kind := Option.some.inj hkind
      exact .inl ⟨hatom, hnext⟩
    · exact .inr ⟨t, kind, hkind, hplace t ▸ hatom, hnext⟩
  · rintro (⟨hatom, hnext⟩ | ⟨t, kind, hkind, hatom, hnext⟩)
    · exact ⟨0, node.kind, rfl, hatom, hnext⟩
    · exact ⟨t + 1, kind, hkind, (hplace t).symm ▸ hatom, hnext⟩

theorem takesQuantifier_of_isChain (h : List.IsChain NodeKind.Adjoin ((node :: rest).map (·.kind)))
    (hnext : repetitionAt? rest 0 = some r) : node.kind.takesQuantifier = true := by
  cases rest with
  | nil => cases hnext
  | cons later rest =>
    have hmeet : NodeKind.Adjoin node.kind later.kind := (List.isChain_cons_cons.1 h).1
    exact hmeet (Option.isSome_iff_exists.2 ⟨r, hnext⟩)

/-- **The walk has, at each quantifier, the node whose atom comes right before it**; before
the first node it may have one already. -/
theorem mem_quantified_iff {x : Nat} (h : List.IsChain NodeKind.Adjoin (nodes.map (·.kind))) (index : Nat)
    (atom : Option Nat) :
    (x, r) ∈ quantified index atom nodes ↔ (atom = some x ∧ repetitionAt? nodes 0 = some r) ∨
      ∃ t kind, kindAt? nodes t = some kind ∧ kind.atom? (index + t) = some x ∧
        repetitionAt? nodes (t + 1) = some r := by
  induction nodes generalizing index atom with
  | nil => simp [quantified, repetitionAt?, kindAt?]
  | cons node rest ih =>
    have hlater := ih (List.isChain_cons.1 h).2 (index + 1)
    have htakes := fun hnext => takesQuantifier_of_isChain (r := r) h hnext
    have hfirst : repetitionAt? (node :: rest) 0 = node.kind.repetition? := rfl
    rw [exists_atom_cons_iff, hfirst]
    cases hnode : node.kind.repetition? with
    | none =>
      rw [quantified_of_not_quantifier hnode, hlater]
      have hsame (hnext : repetitionAt? rest 0 = some r) :
          (node.kind.atom? index).or atom = node.kind.atom? index := by
        obtain ⟨-, i, hi⟩ := NodeKind.exists_atom?_of_takesQuantifier (htakes hnext) index
        rw [hi, Option.some_or]
      simp only [reduceCtorEq, and_false, false_or]
      exact or_congr (and_congr_left fun hnext => by rw [hsame hnext]) Iff.rfl
    | some r' =>
      -- Behind a quantifier there is no other.
      have hnot : repetitionAt? rest 0 ≠ some r := by
        intro hnext
        have hfalse := NodeKind.takesQuantifier_of_repetition? hnode
        exact Bool.false_ne_true (hfalse.symm.trans (htakes hnext))
      have hmem : (x, r) ∈ (atom.map (·, r')).toList ↔ atom = some x ∧ some r' = some r := by
        cases atom <;> simp [eq_comm]
      rw [quantified_of_quantifier hnode, List.mem_append, hlater, hmem]
      simp only [hnot, and_false, false_or]

theorem repetitionAt?_eq_some_iff :
    repetitionAt? nodes j = some r ↔ ∃ q, kindAt? nodes j = some (.quantifier q) ∧ q.repetition = r := by
  rw [repetitionAt?, Option.bind_eq_some_iff]
  constructor
  · rintro ⟨kind, hkind, hr⟩
    cases kind with
    | quantifier q => exact ⟨q, hkind, Option.some.inj hr⟩
    | _ => cases hr
  · rintro ⟨q, hkind, rfl⟩
    exact ⟨_, hkind, rfl⟩

namespace Attached

variable {encoding : Encoding} {pattern : List Char} {last : Node} {run : List Char}

theorem takesQuantifier_of_repetitionAt? (h : Attached encoding pattern nodes) {kind : NodeKind}
    (hkind : kindAt? nodes t = some kind) (hnext : repetitionAt? nodes (t + 1) = some r) :
    kind.takesQuantifier = true := by
  obtain ⟨q, hquantifier, -⟩ := repetitionAt?_eq_some_iff.1 hnext
  obtain ⟨t', kind', heq, hkind', htakes⟩ := h.exists_takesQuantifier_before hquantifier
  obtain rfl := Nat.succ.inj heq
  rwa [Option.some.inj (hkind.symm.trans hkind')]

/-- **A node repeats as the node behind its atom asks for.** -/
theorem repetitionOf_eq (h : Attached encoding pattern nodes) (hmatch : GroupsMatch nodes) (hatom : AtomEnd nodes i t) :
    repetitionOf nodes i = (repetitionAt? nodes (t + 1)).getD .once := by
  have hlookup : (quantified 0 none nodes).reverse.lookup i = repetitionAt? nodes (t + 1) := by
    refine lookup_eq_of_mem_iff fun r => ?_
    rw [List.mem_reverse, mem_quantified_iff (List.isChain_cons.1 h.adjoin).2]
    simp only [reduceCtorEq, false_and, false_or, Nat.zero_add]
    constructor
    · rintro ⟨t', kind, hkind, hatom', hnext⟩
      obtain ⟨hopen, -⟩ := NodeKind.exists_atom?_of_takesQuantifier (h.takesQuantifier_of_repetitionAt? hkind hnext) t'
      rwa [hatom.eq ((atomEnd_iff hmatch hkind hopen).2 hatom')]
    · intro hnext
      obtain ⟨last, hlast, hopen, -⟩ := hatom.exists_last
      have hkind : kindAt? nodes t = some last.kind := by rw [kindAt?, hlast, Option.map_some]
      exact ⟨t, last.kind, hkind, (atomEnd_iff hmatch hkind hopen).1 hatom, hnext⟩
  rw [repetitionOf, hlookup]

/-- What is asked for behind a node is asked for right behind it in the text. -/
theorem token_repetitionAt? (h : Attached encoding pattern nodes) (hlast : nodes[t]? = some last)
    (hlive : last.kind ≠ .inert) :
    Token.repetitionAt? encoding pattern last.finish = repetitionAt? nodes (t + 1) := by
  refine Option.ext fun r => ?_
  rw [Token.repetitionAt?_eq_some_iff, repetitionAt?_eq_some_iff]
  simp only [h.token_iff hlast hlive]

/-- **A node repeats as the token behind its atom asks for.** -/
theorem repetitionOf_eq_of_token (h : Attached encoding pattern nodes) (hmatch : GroupsMatch nodes)
    (hatom : AtomEnd nodes i t) (hlast : nodes[t]? = some last) :
    repetitionOf nodes i = (Token.repetitionAt? encoding pattern last.finish).getD .once := by
  obtain ⟨_, hlast', -, hlive⟩ := hatom.exists_last
  obtain rfl := Option.some.inj (hlast.symm.trans hlast')
  rw [h.token_repetitionAt? hlast hlive, h.repetitionOf_eq hmatch hatom]

theorem inOrder_repetitionOf (h : Attached encoding pattern nodes) (hmatch : GroupsMatch nodes) {node : Node}
    (hnode : nodes[i]? = some node) (hbears : node.kind.bearsState = true) : (repetitionOf nodes i).InOrder := by
  have hkind : kindAt? nodes i = some node.kind := by rw [kindAt?, hnode, Option.map_some]
  obtain ⟨t, hatom⟩ := exists_atomEnd hmatch hkind hbears
  obtain ⟨last, hlast, -⟩ := hatom.exists_last
  rw [h.repetitionOf_eq_of_token hmatch hatom hlast]
  cases hread : Token.repetitionAt? encoding pattern last.finish with
  | none => exact Repetition.inOrder_once
  | some r => exact Token.inOrder_of_repetitionAt? hread

/-- Literals that are joined are not repeated. -/
theorem repetitionOf_of_literal (h : Attached encoding pattern nodes) (hmatch : GroupsMatch nodes)
    (hkind : kindAt? nodes i = some (.literal run)) (hrun : run.length ≠ 1) : repetitionOf nodes i = .once := by
  rw [h.repetitionOf_eq hmatch (.single hkind rfl (by simp))]
  cases hnext : repetitionAt? nodes (i + 1) with
  | none => rfl
  | some r =>
    have htakes := h.takesQuantifier_of_repetitionAt? hkind hnext
    match run, hrun, htakes with
    | [_], hrun, _ => exact absurd rfl hrun

end Attached

/-! ## The state of a node -/

theorem repetition_of_state? {s : State} (h : state? nodes i = some s) : s.repetition = repetitionOf nodes i := by
  obtain ⟨node, -, h⟩ := Option.bind_eq_some_iff.1 h
  obtain ⟨guard, -, h⟩ := Option.bind_eq_some_iff.1 h
  obtain rfl := Option.some.inj h
  rfl

/-- The quantifier at `j` is that of the state with number `k`. -/
def Repeats (nodes : List Node) (j k : Nat) : Prop := ∃ i, (stateIndices nodes)[k]? = some i ∧ Quantifies nodes j i

end Node

namespace Automaton

open Node

/-- The state with number `k` comes from the node at `i`: it asks for what the node stands
for, belongs to the state of the node's group, and repeats as the token right behind the
node's atom says. -/
structure ComesFrom (a : Automaton) (encoding : Encoding) (pattern : List Char) (nodes : List Node) (i k : Nat)
    (node : Node) (s : State) : Prop where
  place : nodes[i]? = some node
  entry : a.states[k]? = some s
  id : s.id = k
  guard : Guard.ofKind? node.kind = some s.guard
  group : ∀ g, node.group = some g → (stateIndices nodes)[s.group]? = some g
  outermost : node.group = none → s.group = a.reject
  atom : ∃! t, AtomEnd nodes i t
  repetition : ∀ t last, AtomEnd nodes i t → nodes[t]? = some last →
    s.repetition = (Token.repetitionAt? encoding pattern last.finish).getD .once
  literal : ∀ run, node.kind = .literal run → run.length ≠ 1 → s.repetition = .once

/-- The automaton has a state for each node that bears one, in order, and each quantifier
is that of one state. -/
structure Mirrors (a : Automaton) (encoding : Encoding) (pattern : List Char) (nodes : List Node) : Prop where
  size : a.size = (stateIndices nodes).length + 2
  states : ∀ k i, (stateIndices nodes)[k]? = some i → ∃ node s, a.ComesFrom encoding pattern nodes i k node s
  quantifiers : ∀ j node q, nodes[j]? = some node → node.kind = .quantifier q → ∃! k, Repeats nodes j k
  apart : ∀ j j' k, Repeats nodes j k → Repeats nodes j' k → j = j'
  repetition : ∀ j k node q s, Repeats nodes j k → nodes[j]? = some node → node.kind = .quantifier q →
    a.states[k]? = some s → s.repetition = q.repetition
  inOrder : ∀ s ∈ a.states, s.repetition.InOrder

variable {encoding : Encoding} {pattern : List Char} {list : NodeList} {i : Nat} {node : Node}

theorem comesFrom_ofNodeList (h : Attached encoding pattern list.nodes) (hmatch : GroupsMatch list.nodes)
    (hnode : list.nodes[i]? = some node) (hbears : node.kind.bearsState = true) :
    ∃ s, (ofNodeList list).ComesFrom encoding pattern list.nodes i (rank list.nodes i) node s := by
  obtain ⟨s, hs⟩ := exists_state? hnode hbears
  obtain ⟨_, hyields⟩ := exists_yields hs
  obtain rfl := Option.some.inj (hnode.symm.trans hyields.place)
  have hkind : kindAt? list.nodes i = some node.kind := by rw [kindAt?, hnode, Option.map_some]
  refine ⟨s.connected, hnode, getElem?_of_state? hs, hyields.id, hyields.guard, ?group, ?outermost,
    ?atom, ?repetition, ?literal⟩
  case group =>
    intro g hg
    have haround : Innermost list.nodes i (some g) := hg ▸ hmatch.innermost i node hnode
    obtain ⟨c, hgroup, -⟩ := haround.1
    obtain ⟨entry, hentry, hopens⟩ := exists_of_kindAt? hgroup.1
    have hentryBears : entry.kind.bearsState = true := by rw [hopens]; rfl
    refine getElem?_stateIndices_iff.2 ⟨entry, hentry, hentryBears, ?_⟩
    show _ = s.group
    rw [hyields.group, hg, targetState_of_bears hentry hentryBears]
  case outermost =>
    intro hg
    show s.group = _
    rw [hyields.group, hg, reject_ofNodeList]
    rfl
  case atom =>
    obtain ⟨t, hatom⟩ := exists_atomEnd hmatch hkind hbears
    exact ⟨t, hatom, fun t' hatom' => hatom'.eq hatom⟩
  case repetition =>
    intro t last hatom hlast
    exact (repetition_of_state? hs).trans (h.repetitionOf_eq_of_token hmatch hatom hlast)
  case literal =>
    intro run hrun hlength
    rw [hrun] at hkind
    exact (repetition_of_state? hs).trans (h.repetitionOf_of_literal hmatch hkind hlength)

theorem mirrors_ofNodeList (h : Attached encoding pattern list.nodes) (hmatch : GroupsMatch list.nodes) :
    (ofNodeList list).Mirrors encoding pattern list.nodes where
  size := by rw [size_ofNodeList, length_stateIndices]
  states := by
    intro k i hk
    obtain ⟨node, hnode, hbears, rfl⟩ := getElem?_stateIndices_iff.1 hk
    exact ⟨node, comesFrom_ofNodeList h hmatch hnode hbears⟩
  quantifiers := by
    intro j node q hnode hkind
    have hj : kindAt? list.nodes j = some (.quantifier q) := by rw [kindAt?, hnode, Option.map_some, hkind]
    obtain ⟨i, hquantifies, hunique⟩ := h.existsUnique_quantifies hmatch hj
    obtain ⟨start, hstart, hbears⟩ := hquantifies.exists_bearer
    refine ⟨rank list.nodes i, ⟨i, getElem?_stateIndices_iff.2 ⟨start, hstart, hbears, rfl⟩, hquantifies⟩, ?_⟩
    rintro k ⟨i', hk, hquantifies'⟩
    obtain rfl := hunique i' hquantifies'
    obtain ⟨-, -, -, hrank⟩ := getElem?_stateIndices_iff.1 hk
    exact hrank.symm
  apart := by
    rintro j j' k ⟨i, hk, hquantifies⟩ ⟨i', hk', hquantifies'⟩
    obtain rfl := Option.some.inj (hk.symm.trans hk')
    exact h.eq_of_quantifies hquantifies hquantifies'
  repetition := by
    rintro j k node q s ⟨i, hk, t, last, _, _, hatom, hlast, hnode', -, hoffset⟩ hnode hkind hs
    obtain rfl := Option.some.inj (hnode.symm.trans hnode')
    obtain ⟨start, hstart, hbears, rfl⟩ := getElem?_stateIndices_iff.1 hk
    obtain ⟨s', hcomes⟩ := comesFrom_ofNodeList h hmatch hstart hbears
    obtain rfl := Option.some.inj (hs.symm.trans hcomes.entry)
    have htoken := ((h.placed node (List.mem_of_getElem? hnode)).token (by rw [hkind]; rfl) (by simp [hkind]) q).2 hkind
    rw [hcomes.repetition t last hatom hlast, ← hoffset, Token.repetitionAt?_eq_some_iff.2 ⟨q, htoken, rfl⟩,
      Option.getD_some]
  inOrder := by
    intro s hs
    rw [states_ofNodeList, List.mem_append, List.mem_map] at hs
    rcases hs with ⟨s', hs', rfl⟩ | hs
    · obtain ⟨i, -, hstate⟩ := List.mem_filterMap.1 hs'
      obtain ⟨node, hyields⟩ := exists_yields hstate
      show s'.repetition.InOrder
      rw [repetition_of_state? hstate]
      exact h.inOrder_repetitionOf hmatch hyields.place hyields.bears
    · rcases List.mem_pair.1 hs with rfl | rfl <;> exact Repetition.inOrder_once

/-- **The automaton of a pattern mirrors its nodes**, and every quantifier is that of the
state whose atom it lies right behind in the pattern. It is the automaton that one loop over
the nodes builds, which keeps the last atom and the groups that are open. -/
theorem mirrors_of_parse {options : Options} (h : NodeList.parse encoding pattern options = .ok list) :
    ∃ a, compile encoding pattern options = .ok a ∧
      (Indexed.build list : Checked CompileError Automaton) = Checked.answer (.ok a) ∧
      a.Mirrors encoding pattern list.nodes := by
  obtain ⟨hwired, hrange⟩ := Indexed.inRange_of_parse h
  have hattached : Attached encoding pattern list.nodes := by
    obtain ⟨p, hp, hchain, rfl⟩ := NodeList.parse_eq_ok_iff.1 h
    exact (attached_ofItems hp hchain).runAll options.passes
  exact ⟨ofNodeList list, by rw [compile, h], Indexed.build_eq hwired hrange,
    mirrors_ofNodeList hattached (groupsMatch_of_wired hwired)⟩

/-- Groups that are repeated lie in each other, and a repeated literal behind joined ones. -/
theorem mirrors_of_parse_nested :
    ∃ list,
      NodeList.parse .unicode ['a', 'b', 'c', '*', '(', 'd', '(', 'e', '|', 'f', ')', '+', ')', '{', '2', '}'] {} =
        .ok list ∧
      ∃ a,
        compile .unicode ['a', 'b', 'c', '*', '(', 'd', '(', 'e', '|', 'f', ')', '+', ')', '{', '2', '}'] {} =
          .ok a ∧
        (Indexed.build list : Checked CompileError Automaton) = Checked.answer (.ok a) ∧
        a.Mirrors .unicode ['a', 'b', 'c', '*', '(', 'd', '(', 'e', '|', 'f', ')', '+', ')', '{', '2', '}']
          list.nodes := by
  refine ⟨_, rfl, ?_⟩
  exact @mirrors_of_parse .unicode
    ['a', 'b', 'c', '*', '(', 'd', '(', 'e', '|', 'f', ')', '+', ')', '{', '2', '}'] _ {} rfl

end Automaton

end RegexAutomaton
