/-
Linking by index.

Going from the last node down, the loop knows the outlook of `Outlook.passAll`, with the
groups in two stacks of their own (`Linkage.ofOutlook`), and each round passes one node as
`Outlook.pass` does (`step_ofOutlook`). The group that a round finds opened is in both
stacks, because the groups of wired nodes match. A link leads to a node of the list
(`Node.inRange_linkNodes`).
-/
import RegexAutomaton.Indexed.Passes
import RegexAutomaton.Proofs.GroupStack
import RegexAutomaton.Proofs.Reads

namespace RegexAutomaton

theorem Node.Wired.exists_drop {groups : List Nat} {index : Nat} {nodes : List Node} (h : Wired groups index nodes)
    {i : Nat} (hi : i ≤ nodes.length) : ∃ groups', Wired groups' (index + i) (nodes.drop i) := by
  induction nodes generalizing groups index i with
  | nil =>
    obtain rfl : i = 0 := Nat.le_zero.1 hi
    exact ⟨groups, h⟩
  | cons node rest ih =>
    cases i with
    | zero => exact ⟨groups, h⟩
    | succ i =>
      obtain ⟨groups', hrest⟩ := ih h.2 (Nat.le_of_succ_le_succ hi)
      rw [Nat.add_assoc, Nat.add_comm 1] at hrest
      exact ⟨groups', hrest⟩

/-! ## Where links lead -/

/-- Links lead to nodes of the list. -/
structure Node.InRange (nodes : List Node) : Prop where
  next : ∀ node ∈ nodes, node.kind.bearsState = true → ∀ t, node.next = some t → t < nodes.length
  close : ∀ node ∈ nodes, node.kind = .groupOpen → ∀ t, node.close = some t → t < nodes.length

namespace Outlook

/-- Every node that is known of comes before a bound. -/
structure Below (bound : Nat) (o : Outlook) : Prop where
  follow : ∀ t, o.follow = some t → t < bound
  closes : ∀ close ∈ o.groups.map (·.1), ∀ t, close = some t → t < bound
  alternations : ∀ link ∈ o.alternations, ∀ t, link = some t → t < bound

variable {o : Outlook} {bound index : Nat} {node : Node}

namespace Below

theorem setTail (h : o.Below bound) (tail : Bool) : (o.setTail tail).Below bound := by
  refine ⟨?_, ?_, ?_⟩
  · rw [follow_setTail]
    exact h.follow
  · rw [closes_setTail]
    exact h.closes
  · rw [alternations_setTail]
    exact h.alternations

theorem close (h : o.Below bound) (t : Nat) (ht : o.close = some t) : t < bound := by
  rw [Outlook.close, ← List.head?_map, Option.join_eq_some_iff] at ht
  exact h.closes _ (List.mem_of_head? ht) t rfl

theorem visit (h : o.Below bound) (hindex : index < bound) (node : Node) : (o.visit index node).2.Below bound := by
  have hhere : { o with follow := some index }.Below bound :=
    ⟨fun _ ht => Option.some.inj ht ▸ hindex, h.closes, h.alternations⟩
  exact hhere.setTail false

/-- Linking one node links it to nodes before the bound. -/
theorem pass (h : o.Below bound) (hindex : index < bound) (node : Node) :
    (o.pass index node).2.Below bound ∧
      (node.kind.bearsState = true → ∀ t, (o.pass index node).1.next = some t → t < bound) ∧
      (node.kind = .groupOpen → ∀ t, (o.pass index node).1.close = some t → t < bound) := by
  obtain ⟨kind, offset, length, next, close, group, endsGroup⟩ := node
  cases kind with
  | groupClose g => exact ⟨⟨h.follow, List.forall_mem_cons.2 ⟨h.follow, h.closes⟩, h.alternations⟩, nofun, nofun⟩
  | alternationEnd => exact ⟨⟨h.follow, h.closes, List.forall_mem_cons.2 ⟨h.follow, h.alternations⟩⟩, nofun, nofun⟩
  | bar =>
    have hnext : { o with follow := o.alternations.headD none }.Below bound := by
      refine ⟨fun t ht => ?_, h.closes, h.alternations⟩
      rw [List.headD_eq_head?_getD] at ht
      cases hhead : o.alternations.head? with
      | none => simp [hhead] at ht
      | some link =>
        rw [hhead] at ht
        exact h.alternations link (List.mem_of_head? hhead) t ht
    exact ⟨hnext.setTail true, nofun, nofun⟩
  | alternationStart =>
    exact ⟨⟨h.follow, h.closes, fun link hlink => h.alternations link (List.mem_of_mem_tail hlink)⟩, nofun, nofun⟩
  | groupOpen =>
    have houter : { o with groups := o.groups.tail }.Below bound := by
      refine ⟨h.follow, fun close hclose => h.closes close ?_, h.alternations⟩
      rw [List.map_tail] at hclose
      exact List.mem_of_mem_tail hclose
    exact ⟨houter.visit hindex _, fun _ => h.follow, fun _ => h.close⟩
  | sentinel | inert | collapsedEnd | quantifier _ => exact ⟨h, nofun, nofun⟩
  | literal _ | bracket _ | dot | anchorStart | anchorEnd | collapsedStart _ =>
    exact ⟨h.visit hindex _, fun _ => h.follow, nofun⟩

end Below

theorem below_passAll (nodes : List Node) (hbound : index + nodes.length ≤ bound) :
    (empty.passAll index nodes).2.Below bound ∧ ∀ node ∈ (empty.passAll index nodes).1,
      (node.kind.bearsState = true → ∀ t, node.next = some t → t < bound) ∧
      (node.kind = .groupOpen → ∀ t, node.close = some t → t < bound) := by
  induction nodes generalizing index with
  | nil => exact ⟨⟨nofun, nofun, nofun⟩, nofun⟩
  | cons node rest ih =>
    rw [List.length_cons] at hbound
    obtain ⟨hbelow, hrest⟩ := @ih (index + 1) (by omega)
    obtain ⟨hleft, hnext, hclose⟩ := hbelow.pass (show index < bound by omega) node
    rw [passAll_cons]
    refine ⟨hleft, List.forall_mem_cons.2 ⟨?_, hrest⟩⟩
    rw [kind_pass]
    exact ⟨hnext, hclose⟩

end Outlook

/-- **Linked nodes are linked to nodes of the list.** -/
theorem Node.inRange_linkNodes (nodes : List Node) : InRange (linkNodes nodes) := by
  obtain ⟨-, hlinks⟩ := @Outlook.below_passAll nodes.length 0 nodes (Nat.le_of_eq (Nat.zero_add _))
  rw [← length_linkNodes nodes] at hlinks
  exact ⟨fun node hnode => (hlinks node hnode).1, fun node hnode => (hlinks node hnode).2⟩

/-! ## Linking by index -/

namespace Indexed

open Checked

variable {ε : Type}

namespace Linkage

/-- What the loop knows where the part on the right has an outlook. -/
def ofOutlook (o : Outlook) (nodes : List Node) : Linkage :=
  ⟨nodes, o.follow, o.groups.map (·.1), (o.groups.map (·.2) ++ [false]).reverse, o.alternations⟩

variable {left right : List Node} {node : Node} {o : Outlook}

theorem tails_ofOutlook_cons (follow close : Option Nat) (tail : Bool) (groups : List (Option Nat × Bool))
    (alternations : List (Option Nat)) (nodes : List Node) :
    (ofOutlook ⟨follow, (close, tail) :: groups, alternations⟩ nodes).tails =
      (groups.map (·.2) ++ [false]).reverse ++ [tail] := List.reverse_cons

theorem getLast?_tails_ofOutlook (o : Outlook) (nodes : List Node) :
    (ofOutlook o nodes).tails.getLast?.getD false = o.isTail := by
  obtain ⟨follow, groups, alternations⟩ := o
  cases groups with
  | nil => rfl
  | cons group groups => rw [tails_ofOutlook_cons, List.getLast?_concat]; rfl

theorem tails_setTail (o : Outlook) (nodes : List Node) :
    (if o.isTail then (ofOutlook o nodes).tails.dropLast ++ [false] else (ofOutlook o nodes).tails) =
      (ofOutlook (o.setTail false) nodes).tails := by
  obtain ⟨follow, groups, alternations⟩ := o
  cases groups with
  | nil => rfl
  | cons group groups =>
    obtain ⟨close, tail⟩ := group
    rw [Outlook.setTail, tails_ofOutlook_cons, tails_ofOutlook_cons, List.dropLast_concat]
    cases tail <;> rfl

theorem link_ofOutlook (o : Outlook) (left : List Node) (node : Node) (right : List Node) :
    ((ofOutlook o (left ++ node :: right)).link left.length : Checked ε _) =
      answer (.ok (ofOutlook (o.visit left.length node).2 (left ++ (o.visit left.length node).1 :: right))) := by
  rw [link, getLast?_tails_ofOutlook, tails_setTail]
  refine (congrArg (· >>= _) (change_middle left node right _ rfl)).trans ?_
  rw [answer_ok_bind, pure_eq]
  obtain ⟨follow, groups, alternations⟩ := o
  cases groups with
  | nil => simp [ofOutlook, Outlook.visit, Outlook.isTail, Outlook.setTail]
  | cons group groups =>
    obtain ⟨close, tail⟩ := group
    cases tail <;> simp [ofOutlook, Outlook.visit, Outlook.isTail, Outlook.setTail]

/-- A round passes a node. -/
theorem step_ofOutlook (left : List Node) (right : List Node) (hopen : node.kind = .groupOpen → o.groups ≠ []) :
    ((ofOutlook o (left ++ node :: right)).step left.length : Checked ε _) =
      answer (.ok (ofOutlook (o.pass left.length node).2 (left ++ (o.pass left.length node).1 :: right))) := by
  have hlink := @link_ofOutlook ε o left node right
  rw [step]
  refine (congrArg (· >>= _) (entry_middle left node right rfl)).trans ?_
  rw [answer_ok_bind]
  obtain ⟨follow, groups, alternations⟩ := o
  cases hkind : node.kind with
  | groupClose g => simp [ofOutlook, Outlook.pass, hkind, pure_eq]
  | alternationEnd => simp [ofOutlook, Outlook.pass, hkind, pure_eq]
  | bar =>
    cases groups with
    | nil => simp [ofOutlook, Outlook.pass, Outlook.setTail, hkind, pure_eq]
    | cons group groups =>
      obtain ⟨close, tail⟩ := group
      have hdepth : ((groups.map (·.2) ++ [false]).reverse ++ [tail]).length =
          (groups.map (·.2) ++ [false]).reverse.length + 1 := List.length_append
      have hpos : 1 < (groups.map (·.2) ++ [false]).reverse.length + 1 := by simp
      dsimp only
      rw [tails_ofOutlook_cons, hdepth, if_pos hpos, sub_eq (Nat.le_add_left ..), answer_ok_bind, Nat.add_sub_cancel,
        change_middle _ tail [] _ rfl, answer_ok_bind]
      simp [ofOutlook, Outlook.pass, Outlook.setTail, hkind, pure_eq]
  | alternationStart => simp [ofOutlook, Outlook.pass, hkind, pure_eq]
  | groupOpen =>
    cases groups with
    | nil => exact absurd rfl (hopen hkind)
    | cons group groups =>
      obtain ⟨close, tail⟩ := group
      dsimp only
      refine (congrArg (· >>= _) (change_middle left node right _ rfl)).trans ?_
      rw [answer_ok_bind, tails_ofOutlook_cons, List.dropLast_concat]
      obtain ⟨kind, offset, length, next, close', around, endsGroup⟩ := node
      obtain rfl : kind = .groupOpen := hkind
      exact link_ofOutlook ⟨follow, groups, alternations⟩ left
        ⟨.groupOpen, offset, length, next, close, around, endsGroup⟩ right
  | sentinel | inert | collapsedEnd | quantifier _ => simp [Outlook.pass, hkind, NodeKind.bearsState, pure_eq]
  | literal _ | bracket _ | dot | anchorStart | anchorEnd | collapsedStart _ =>
    simpa [Outlook.pass, hkind, NodeKind.bearsState] using hlink

end Linkage

open Linkage

/-- **Nodes are linked by index as in one walk from the right.** -/
theorem linkNodes_eq {nodes : List Node} (h : Node.Wired [] 0 nodes) :
    (linkNodes nodes : Checked ε _) = answer (.ok (RegexAutomaton.linkNodes nodes)) := by
  let Holds (i : Nat) (s : Linkage) : Prop :=
    s = .ofOutlook (Outlook.empty.passAll i (nodes.drop i)).2
      (nodes.take i ++ (Outlook.empty.passAll i (nodes.drop i)).1)
  have hfirst : Holds nodes.length ⟨nodes, none, [], [false], []⟩ := by
    simp only [Holds, List.drop_length, List.take_length, Outlook.passAll_nil, List.append_nil]
    rfl
  have hround (i : Nat) (hi : i < nodes.length) (s : Linkage) (hs : Holds (i + 1) s) :
      ∃ s', (s.step i : Checked ε _) = answer (.ok s') ∧ Holds i s' := by
    obtain ⟨node, hnode⟩ : ∃ node, nodes[i]? = some node := ⟨_, List.getElem?_eq_getElem hi⟩
    have hdrop := drop_of_getElem? hnode
    have hlength : (nodes.take i).length = i := by rw [List.length_take]; omega
    have htake : nodes.take (i + 1) = nodes.take i ++ [node] := by rw [List.take_add_one, hnode]; rfl
    obtain ⟨groups, hwired⟩ := h.exists_drop (Nat.le_of_lt hi)
    rw [hdrop, Nat.zero_add] at hwired
    have hopen : node.kind = .groupOpen → (Outlook.empty.passAll (i + 1) (nodes.drop (i + 1))).2.groups ≠ [] := by
      intro hkind hnil
      have hdepth := (Outlook.wired_passAll hwired.2).2.depth
      rw [hnil, hkind] at hdepth
      cases hdepth
    have hstep := @step_ofOutlook ε _ _ (nodes.take i) (Outlook.empty.passAll (i + 1) (nodes.drop (i + 1))).1 hopen
    rw [hlength] at hstep
    obtain rfl := hs
    rw [htake, List.append_assoc, List.singleton_append]
    refine ⟨_, hstep, ?_⟩
    simp only [Holds, hdrop, Outlook.passAll_cons]
  obtain ⟨s, hloop, hlast⟩ := exists_foldlM_range_reverse hfirst hround
  rw [linkNodes, hloop, answer_ok_bind, hlast]
  rfl

end Indexed

end RegexAutomaton
