/-
Fail links lead to the next branch.

The look to the right that finds where a node falls back to stops at the end of
the branch that the node lies in (`nextBranch?_of_parts`). In the nodes of a
pattern all alternations are closed and every bar has a node after it that bears
a state, so that node is where the state falls back to
(`onFail_eq_next_branch`).
-/
import RegexAutomaton.Proofs.Alternations
import RegexAutomaton.Proofs.OutlineAutomaton

namespace RegexAutomaton

namespace Node

variable {node : Node} {nodes rest : List Node} {a b e i k opened depth index : Nat}

/-! ## States and their nodes -/

theorem exists_of_stateOf? (h : stateOf? nodes i = some k) :
    ∃ node, nodes[i]? = some node ∧ node.kind.bearsState = true ∧ rank nodes i = k := by
  rw [stateOf?] at h
  cases hnode : nodes[i]? with
  | none => simp [hnode] at h
  | some node => simpa [hnode] using h

theorem stateOf?_of_bears (hnode : nodes[i]? = some node) (hbears : node.kind.bearsState = true) :
    stateOf? nodes i = some (rank nodes i) := by
  simp [stateOf?, hnode, hbears]

theorem onFail_of_state? {s : State} (hs : state? nodes i = some s) :
    s.onFail = targetState nodes (rank nodes nodes.length + 1) (fallback? nodes i) := by
  obtain ⟨node, hnode, hgives⟩ := givesState hs
  obtain ⟨guard, hguard⟩ := Outline.bearsState_iff.1 hgives.bearsState
  simp only [state?, hnode, hguard, bind, Option.bind, Option.some.injEq] at hs
  rw [← hs]
  rfl

theorem bearer?_drop_of_bears (hnode : nodes[i]? = some node) (hbears : node.kind.bearsState = true) :
    bearer? depth index (nodes.drop i) = some index := by
  obtain ⟨hlt, rfl⟩ := List.getElem?_eq_some_iff.1 hnode
  rw [List.drop_eq_getElem_cons hlt]
  exact bearer?_cons_of_bears hbears

/-! ## The look to the right -/

/-- The look to the right with `opened` alternations around, and `depth` more
that opened since, stops with the bar at `k`. -/
structure Stops (opened depth : Nat) (nodes : List Node) (k : Nat) : Prop where
  bar : kindAt? nodes k = some .bar
  low : depth + level nodes k ≤ 0
  nested : 0 < opened + depth + level nodes k
  least : ∀ m ≤ k, level nodes k ≤ level nodes m

theorem stops_cons_zero (opened depth : Nat) (node : Node) (rest : List Node) :
    Stops opened depth (node :: rest) 0 ↔ node.kind = .bar ∧ depth = 0 ∧ 0 < opened := by
  constructor
  · rintro ⟨hbar, hlow, hnested, -⟩
    rw [level_zero] at hlow hnested
    exact ⟨Option.some.inj hbar, by omega, by omega⟩
  · rintro ⟨hbar, rfl, hopened⟩
    refine ⟨congrArg some hbar, by simp, by simpa using hopened, fun m hm => ?_⟩
    obtain rfl := Nat.le_zero.1 hm
    exact Int.le_refl _

/-- What a node changes for the look past it. -/
theorem stops_cons_succ {opened' depth' : Nat} (h : ∀ l : Int, l ≤ 0 →
      ((depth + (node.delta + l) ≤ 0 ∧ 0 < opened + depth + (node.delta + l) ∧ node.delta + l ≤ 0) ↔
        (depth' + l ≤ 0 ∧ 0 < opened' + depth' + l))) :
    Stops opened depth (node :: rest) (k + 1) ↔ Stops opened' depth' rest k := by
  constructor
  · rintro ⟨hbar, hlow, hnested, hleast⟩
    have hleast' : ∀ m ≤ k, level rest k ≤ level rest m := fun m hm => by
      have := hleast (m + 1) (by omega)
      simp only [level_cons] at this
      omega
    have hzero := hleast 0 (by omega)
    rw [level_zero] at hzero
    rw [level_cons] at hlow hnested hzero
    obtain ⟨hlow', hnested'⟩ := (h _ (hleast' 0 (by omega))).1 ⟨hlow, hnested, hzero⟩
    exact ⟨hbar, hlow', hnested', hleast'⟩
  · rintro ⟨hbar, hlow, hnested, hleast⟩
    obtain ⟨hlow', hnested', hzero⟩ := (h _ (hleast 0 (by omega))).2 ⟨hlow, hnested⟩
    refine ⟨hbar, by rwa [level_cons], by rwa [level_cons], fun m hm => ?_⟩
    cases m with
    | zero => rwa [level_cons, level_zero]
    | succ m =>
      have := hleast m (by omega)
      simp only [level_cons]
      omega

/-- The look goes past a node unless it stops there. -/
theorem exists_nextBranch?_cons (opened depth : Nat) (node : Node) (rest : List Node) :
    ∃ opened' depth', (∀ k, Stops opened depth (node :: rest) (k + 1) ↔ Stops opened' depth' rest k) ∧
      ∀ index, nextBranch? opened depth index (node :: rest) =
        if node.kind = .bar ∧ depth = 0 ∧ 0 < opened then bearer? 0 (index + 1) rest
        else nextBranch? opened' depth' (index + 1) rest := by
  cases hkind : node.kind with
  | alternationStart =>
    have hdelta : node.delta = 1 := by rw [delta, hkind]
    refine ⟨opened, depth + 1, fun k => stops_cons_succ fun l hl => ?_, fun index => ?_⟩
    · omega
    · simp [nextBranch?, hkind]
  | alternationEnd =>
    have hdelta : node.delta = -1 := by rw [delta, hkind]
    cases depth with
    | zero =>
      refine ⟨opened - 1, 0, fun k => stops_cons_succ fun l hl => ?_, fun index => ?_⟩
      · omega
      · simp [nextBranch?, hkind]
    | succ depth =>
      refine ⟨opened, depth, fun k => stops_cons_succ fun l hl => ?_, fun index => ?_⟩
      · omega
      · simp [nextBranch?, hkind]
  | bar =>
    have hdelta : node.delta = 0 := by rw [delta, hkind]
    refine ⟨opened, depth, fun k => stops_cons_succ fun l hl => ?_, fun index => ?_⟩
    · omega
    · simp [nextBranch?, hkind]
  | _ =>
    have hdelta : node.delta = 0 := by rw [delta, hkind]
    refine ⟨opened, depth, fun k => stops_cons_succ fun l hl => ?_, fun index => ?_⟩
    · omega
    · simp [nextBranch?, hkind]

/-- The look finds what comes after the first bar that it stops with. -/
theorem nextBranch?_of_stops (hstops : Stops opened depth nodes k) (hfirst : ∀ k' < k, ¬ Stops opened depth nodes k') :
    nextBranch? opened depth index nodes = bearer? 0 (index + k + 1) (nodes.drop (k + 1)) := by
  induction nodes generalizing opened depth index k with
  | nil => cases hstops.bar
  | cons node rest ih =>
    obtain ⟨opened', depth', hrest, hnext⟩ := exists_nextBranch?_cons opened depth node rest
    rw [hnext index]
    cases k with
    | zero => rw [if_pos ((stops_cons_zero ..).1 hstops), List.drop_succ_cons, List.drop_zero, Nat.add_zero]
    | succ k =>
      rw [if_neg fun h => hfirst 0 (Nat.succ_pos k) ((stops_cons_zero ..).2 h), List.drop_succ_cons,
        ih ((hrest k).1 hstops) fun k' hk' h => hfirst (k' + 1) (Nat.succ_lt_succ hk') ((hrest k').2 h)]
      congr 1
      omega

theorem nextBranch?_eq_none (h : ∀ k, ¬ Stops opened depth nodes k) : nextBranch? opened depth index nodes = none := by
  induction nodes generalizing opened depth index with
  | nil => rfl
  | cons node rest ih =>
    obtain ⟨opened', depth', hrest, hnext⟩ := exists_nextBranch?_cons opened depth node rest
    rw [hnext index, if_neg fun hzero => h 0 ((stops_cons_zero ..).2 hzero)]
    exact ih fun k hk => h (k + 1) ((hrest k).2 hk)

/-- In a list that closes its alternations the walk counts the levels. -/
theorem depthFrom_eq (h : ∀ k, 0 ≤ opened + level nodes k) : (depthFrom opened nodes : Int) = opened + net nodes := by
  induction nodes generalizing opened with
  | nil => exact (Int.add_zero _).symm
  | cons node rest ih =>
    have hfirst := h 1
    rw [level_cons, level_zero] at hfirst
    have hstep : (depthAfter opened node : Int) = opened + node.delta := by
      unfold depthAfter delta at *
      split at * <;> simp_all
      omega
    rw [depthFrom, List.foldl_cons]
    have hrest := @ih (depthAfter opened node) fun k => by
      have := h (k + 1)
      rw [level_cons] at this
      omega
    rw [depthFrom] at hrest
    rw [hrest, net_cons, hstep]
    omega

/-- The look from a node stops with the bars to which the level does not rise. -/
theorem stops_iff_parts (h : Balanced nodes) (hnode : nodes[i]? = some node) (hbears : node.kind.bearsState = true) :
    Stops (depthFrom 0 (nodes.take i)) 0 (nodes.drop (i + 1)) k ↔ Parts nodes i (i + 1 + k) := by
  have hdepth : (depthFrom 0 (nodes.take i) : Int) = level nodes i := by
    rw [depthFrom_eq, level]
    · exact Int.zero_add _
    · intro k
      rw [level, List.take_take]
      exact (Int.zero_add _).symm ▸ h.sane _
  have hsame := level_bears hnode hbears
  have hkind : kindAt? (nodes.drop (i + 1)) k = kindAt? nodes (i + 1 + k) := by
    rw [kindAt?, List.getElem?_drop, kindAt?]
  constructor
  · rintro ⟨hbar, hlow, hnested, hleast⟩
    rw [level_drop] at hlow hnested
    refine ⟨hkind ▸ hbar, by omega, by omega, fun m hm hle => ?_⟩
    have := hleast (m - (i + 1)) (by omega)
    rw [level_drop, level_drop, show i + 1 + (m - (i + 1)) = m by omega] at this
    omega
  · rintro ⟨hbar, -, hnested, hlow⟩
    have hfirst := hlow (i + 1) (by omega) (by omega)
    refine ⟨hkind.trans hbar, ?_, ?_, fun m hm => ?_⟩
    · rw [level_drop]
      omega
    · rw [level_drop]
      omega
    · have := hlow (i + 1 + m) (by omega) (by omega)
      rw [level_drop, level_drop]
      omega

/-! ## Where a node falls back to -/

theorem fallback?_of_endOfBranch (h : Balanced nodes) (hnode : nodes[i]? = some node)
    (hbears : node.kind.bearsState = true) (hend : EndOfBranch nodes i a e b) :
    fallback? nodes i = bearer? 0 (b + 1) (nodes.drop (b + 1)) := by
  obtain ⟨hparts, hfirst⟩ := hend.parts h hnode hbears
  have hright := hparts.right
  have hplace : i + 1 + (b - (i + 1)) = b := by omega
  rw [fallback?_eq hnode hbears, nextBranch?_of_stops (k := b - (i + 1))
    ((stops_iff_parts h hnode hbears).2 (by rwa [hplace])), List.drop_drop, ← Nat.add_assoc, hplace]
  intro k hk hstops
  have := hfirst _ ((stops_iff_parts h hnode hbears).1 hstops)
  omega

theorem fallback?_eq_none (h : Balanced nodes) (hnode : nodes[i]? = some node)
    (hbears : node.kind.bearsState = true) (hnone : ∀ b, ¬ Parts nodes i b) : fallback? nodes i = none := by
  rw [fallback?_eq hnode hbears]
  exact nextBranch?_eq_none fun k hk => hnone _ ((stops_iff_parts h hnode hbears).1 hk)

/-- After every bar comes a node that bears a state. -/
def Entered : List Node → Prop
  | [] => True
  | node :: rest =>
    (node.kind = .bar → ∃ next ∈ rest.head?, next.kind.bearsState = true) ∧ Entered rest

theorem Entered.cons_of_ne (hkind : node.kind ≠ .bar) (h : Entered nodes) : Entered (node :: nodes) :=
  ⟨fun hbar => absurd hbar hkind, h⟩

theorem Entered.exists_next (h : Entered nodes) (hbar : kindAt? nodes b = some .bar) :
    ∃ next, nodes[b + 1]? = some next ∧ next.kind.bearsState = true := by
  induction nodes generalizing b with
  | nil => cases hbar
  | cons node rest ih =>
    cases b with
    | zero =>
      obtain ⟨next, hnext, hbears⟩ := h.1 (Option.some.inj hbar)
      exact ⟨next, by rwa [List.getElem?_cons_succ, ← List.head?_eq_getElem?], hbears⟩
    | succ b => exact ih h.2 hbar

end Node

/-! ## The nodes of a pattern -/

namespace Outline

open Node

theorem delta_of_isLeaf {node : Node} (h : node.kind.isStructural = false) : node.delta = 0 := by
  unfold delta
  cases hkind : node.kind <;> simp_all [NodeKind.isStructural]

theorem balanced_wrap {barred : Bool} {nodes : List Node} (g : Option Nat) (h : Balanced nodes) :
    Balanced (wrap barred g nodes) := by
  unfold wrap
  split
  · exact h.enclose rfl rfl
  · exact h

theorem balanced_linked (o : Outline) (f g : Option Nat) (i : Nat) : Balanced (o.linked f g i) := by
  induction o generalizing f g i with
  | nil => exact balanced_nil
  | leaf kind hleaf rest ih => exact (ih ..).cons (delta_of_isLeaf (by rw [kind_leaf, hleaf]))
  | bar rest ih => exact (ih ..).cons rfl
  | group inner rest ihInner ihRest =>
    exact ((balanced_wrap _ (ihInner ..)).append ((ihRest ..).cons rfl)).cons rfl

theorem entered_wrap {o : Outline} {g : Option Nat} {nodes later : List Node}
    (h : ∀ later, Entered later → Entered (nodes ++ later)) (hlater : Entered later) :
    Entered (wrap o.barred g nodes ++ later) := by
  have hstart : NodeKind.alternationStart ≠ .bar := by decide
  have hend : NodeKind.alternationEnd ≠ .bar := by decide
  unfold wrap
  split
  · rw [List.cons_append, List.append_assoc]
    exact .cons_of_ne hstart (h _ (.cons_of_ne hend hlater))
  · exact h _ hlater

theorem entered_linked {o : Outline} (hsound : o.Sound) (f g : Option Nat) (i : Nat) {later : List Node}
    (h : Entered later) : Entered (o.linked f g i ++ later) := by
  induction o generalizing f g i later with
  | nil => exact h
  | leaf kind hleaf rest ih =>
    exact .cons_of_ne (by rw [kind_leaf]; exact (ne_of_isLeaf hleaf).2.2) (ih hsound.2 f g (i + 1) h)
  | bar rest ih =>
    refine ⟨fun _ => ?_, ih hsound.2 f g (i + 1) h⟩
    obtain ⟨node, nodes, hnodes, hbears⟩ := exists_linked_of_leads hsound.1 f g (i + 1)
    exact ⟨node, by rw [hnodes]; rfl, hbears⟩
  | group inner rest ihInner ihRest =>
    obtain ⟨-, hinner, hrest⟩ := hsound
    rw [linked, List.cons_append, List.append_assoc]
    have hstart : NodeKind.groupOpen ≠ .bar := by decide
    have hend : NodeKind.groupClose i ≠ .bar := fun h => by cases h
    exact .cons_of_ne hstart (entered_wrap (fun _ => ihInner hinner _ _ _) (.cons_of_ne hend (ihRest hrest _ _ _ h)))

end Outline

namespace Node

theorem balanced_placeless : Balanced (nodes.map placeless) ↔ Balanced nodes := by
  have hnet (nodes : List Node) : net (nodes.map placeless) = net nodes := by
    induction nodes with
    | nil => rfl
    | cons node nodes ih => exact congrArg (node.delta + ·) ih
  have hlevel (i : Nat) : level (nodes.map placeless) i = level nodes i := by
    rw [level, ← List.map_take, hnet, level]
  exact ⟨fun h => ⟨fun i => hlevel i ▸ h.sane i, hnet nodes ▸ h.settled⟩,
    fun h => ⟨fun i => (hlevel i).symm ▸ h.sane i, (hnet nodes).symm ▸ h.settled⟩⟩

theorem entered_placeless : Entered (nodes.map placeless) ↔ Entered nodes := by
  induction nodes with
  | nil => exact Iff.rfl
  | cons node rest ih =>
    rw [List.map_cons, Entered, Entered, ih, kind_placeless, List.head?_map]
    simp

end Node

theorem Automaton.reject_ofNodeList (list : NodeList) :
    (ofNodeList list).reject = Node.rank list.nodes list.nodes.length + 1 := by
  rw [reject, size, states_ofNodeList]
  simp [← Node.length_filterMap_state?, Node.states]

/-- In the nodes of a pattern alternations are closed, and branches after a bar
entered. -/
theorem NodeList.balanced_and_entered {encoding : Encoding} {pattern : List Char} {options : Options}
    {list : NodeList} (h : parse encoding pattern options = .ok list) :
    Node.Balanced list.nodes ∧ Node.Entered list.nodes := by
  obtain ⟨p, -, hchain, rfl⟩ := parse_eq_ok_iff.1 h
  have hsound := Outline.sound_rewritten options (Phrase.sound_outline_of_check hchain)
  have hne : NodeKind.sentinel ≠ .bar := by decide
  have hsentinels : Node.Balanced Outline.sentinels := (Node.balanced_nil.cons rfl).cons rfl
  rw [← Node.balanced_placeless, ← Node.entered_placeless, placeless_after, Outline.linkNodes_list]
  exact ⟨(Outline.balanced_wrap none (Outline.balanced_linked ..)).append hsentinels,
    Outline.entered_wrap (fun _ => Outline.entered_linked hsound none none _)
      (.cons_of_ne hne (.cons_of_ne hne trivial))⟩

/-- **A state falls back to the next branch**: to the first state after the bar
that ends its branch in the innermost alternation in which a bar does. If there
is none it falls back to the rejecting state. -/
theorem onFail_eq_next_branch {encoding : Encoding} {pattern : List Char} {options : Options} {list : NodeList}
    {a : Automaton} (hparse : NodeList.parse encoding pattern options = .ok list)
    (h : compile encoding pattern options = .ok a) {i k : Nat} (hi : Node.stateOf? list.nodes i = some k) :
    ∃ s, a.states[k]? = some s ∧
      ((∃ start stop b j, Node.EndOfBranch list.nodes i start stop b ∧ b < j ∧
          (∀ m, b < m → m < j → Node.stateOf? list.nodes m = none) ∧ Node.stateOf? list.nodes j = some s.onFail) ∨
        (∀ start stop b, Node.Alternation list.nodes start stop → start < i → i < stop →
          Node.DirectBar list.nodes start stop b → ¬ i < b) ∧ s.onFail = a.reject) := by
  obtain ⟨hbalanced, hentered⟩ := NodeList.balanced_and_entered hparse
  rw [compile, hparse] at h
  obtain rfl := Except.ok.inj h
  obtain ⟨node, hnode, hbears, rfl⟩ := Node.exists_of_stateOf? hi
  obtain ⟨s, hs⟩ := Node.exists_state? hnode hbears
  have hfail : s.onFail = _ := Node.onFail_of_state? hs
  refine ⟨s.connected, Automaton.getElem?_of_state? hs, ?_⟩
  show (∃ start stop b j, _ ∧ _ ∧ _ ∧ Node.stateOf? list.nodes j = some s.onFail) ∨ _ ∧ s.onFail = _
  by_cases hparts : ∃ b, Node.Parts list.nodes i b
  · obtain ⟨start, stop, b, hend⟩ := Node.exists_endOfBranch hbalanced hnode hbears hparts
    obtain ⟨next, hnext, hnextBears⟩ := hentered.exists_next hend.direct.bar
    refine .inl ⟨start, stop, b, b + 1, hend, Nat.lt_succ_self b, fun m hm hlt => by omega, ?_⟩
    rw [hfail, Node.fallback?_of_endOfBranch hbalanced hnode hbears hend,
      Node.bearer?_drop_of_bears hnext hnextBears, Node.targetState_of_bears hnext hnextBears,
      Node.stateOf?_of_bears hnext hnextBears]
  · rw [not_exists] at hparts
    refine .inr ⟨fun start stop b halt hstart hstop hdirect hright => ?_, ?_⟩
    · exact hparts b ((Node.exists_directBar_iff hbalanced hnode hbears).1
        ⟨start, stop, halt, hstart, hstop, hdirect, hright⟩)
    · rw [hfail, Node.fallback?_eq_none hbalanced hnode hbears hparts, Automaton.reject_ofNodeList]
      rfl

theorem onFail_eq_next_branch_nested :
    ∃ list a k, NodeList.parse .unicode ['a', '|', '(', 'b', '|', 'c', 'd', ')', '|', 'e'] {} = .ok list ∧
      compile .unicode ['a', '|', '(', 'b', '|', 'c', 'd', ')', '|', 'e'] {} = .ok a ∧
      Node.stateOf? list.nodes 7 = some k ∧ ∃ s, a.states[k]? = some s ∧
      ((∃ start stop b j, Node.EndOfBranch list.nodes 7 start stop b ∧ b < j ∧
          (∀ m, b < m → m < j → Node.stateOf? list.nodes m = none) ∧ Node.stateOf? list.nodes j = some s.onFail) ∨
        (∀ start stop b, Node.Alternation list.nodes start stop → start < 7 → 7 < stop →
          Node.DirectBar list.nodes start stop b → ¬ 7 < b) ∧ s.onFail = a.reject) := by
  refine ⟨_, _, _, rfl, rfl, rfl, ?_⟩
  exact @onFail_eq_next_branch .unicode ['a', '|', '(', 'b', '|', 'c', 'd', ')', '|', 'e'] {} _ _ rfl rfl 7 _ rfl

end RegexAutomaton
