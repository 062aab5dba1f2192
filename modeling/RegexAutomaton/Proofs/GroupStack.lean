/-
The groups of a list of nodes, followed with a stack.

Whatever markers a pattern is read with, its groups match: a walk over its nodes
that puts down each group where it opens has none left at the end. `Node.Wired`
says this, and that nodes are linked to others on their right only. It holds of
the nodes that a pattern is read into, and every pass keeps it
(`Pass.wired_runAll`).
-/
import RegexAutomaton.Proofs.BranchEnds
import RegexAutomaton.Proofs.Linking
import RegexAutomaton.Proofs.LiteralRuns

namespace RegexAutomaton

namespace NodeKind

/-- The groups that are open after a node with the given index. -/
def groupsAfter (index : Nat) (groups : List Nat) : NodeKind → List Nat
  | groupOpen => index :: groups
  | groupClose _ => groups.tail
  | _ => groups

/-- The groups around a node. The two ends of a group are outside it. -/
def groupsAround (groups : List Nat) : NodeKind → List Nat
  | groupClose _ => groups.tail
  | _ => groups

/-- The node is neither end of a group. -/
def IsInner (kind : NodeKind) : Prop := kind ≠ groupOpen ∧ ∀ opened, kind ≠ groupClose opened

theorem groups_of_isInner {kind : NodeKind} (h : kind.IsInner) (index : Nat) (groups : List Nat) :
    kind.groupsAround groups = groups ∧ kind.groupsAfter index groups = groups := by
  cases kind with
  | groupOpen => exact absurd rfl h.1
  | groupClose opened => exact absurd rfl (h.2 opened)
  | _ => exact ⟨rfl, rfl⟩

theorem isInner_of_isStructural {kind : NodeKind} (h : kind.isStructural = false) : kind.IsInner :=
  ⟨fun hkind => by simp [hkind, isStructural] at h, fun opened hkind => by simp [hkind, isStructural] at h⟩

theorem isInner_alternationStart : alternationStart.IsInner := ⟨nofun, nofun⟩

theorem isInner_bar : bar.IsInner := ⟨nofun, nofun⟩

theorem isInner_alternationEnd : alternationEnd.IsInner := ⟨nofun, nofun⟩

end NodeKind

namespace Node

/-- A node with the given index fits the groups that are open before it, and its
links lead to the right. -/
structure WiredAt (groups : List Nat) (index : Nat) (node : Node) : Prop where
  group : node.group = (node.kind.groupsAround groups).head?
  opened : ∀ g, node.kind = .groupClose g → groups.head? = some g
  next : ∀ t, node.next = some t → index < t
  close : ∀ t, node.close = some t → index < t
  endsGroup : node.endsGroup = true → node.group.isSome = true

/-- All nodes fit, from one with the given index on, and the groups open before
them are closed by them. -/
def Wired : (groups : List Nat) → (index : Nat) → List Node → Prop
  | groups, _, [] => groups = []
  | groups, index, node :: rest =>
    node.WiredAt groups index ∧ Wired (node.kind.groupsAfter index groups) (index + 1) rest

variable {groups : List Nat} {index k g : Nat} {node : Node} {nodes nodes' rest : List Node}

theorem Wired.exists_wiredAt (h : Wired groups index nodes) (hnode : nodes[k]? = some node) :
    ∃ groups', node.WiredAt groups' (index + k) := by
  induction nodes generalizing groups index k with
  | nil => cases hnode
  | cons head rest ih =>
    cases k with
    | zero =>
      obtain rfl := Option.some.inj hnode
      exact ⟨groups, h.1⟩
    | succ k =>
      rw [Nat.add_comm k, ← Nat.add_assoc]
      exact ih h.2 hnode

/-- The group around a node is open at first, or a node further left opens it. -/
theorem Wired.exists_groupOpen (h : Wired groups index nodes) (hnode : nodes[k]? = some node)
    (hgroup : node.group = some g) :
    g ∈ groups ∨ ∃ j < k, g = index + j ∧ ∃ start, nodes[j]? = some start ∧ start.kind = .groupOpen := by
  induction nodes generalizing groups index k with
  | nil => cases hnode
  | cons head rest ih =>
    cases k with
    | zero =>
      obtain rfl := Option.some.inj hnode
      have hhead := h.1.group.symm.trans hgroup
      refine .inl ?_
      unfold NodeKind.groupsAround at hhead
      split at hhead
      · exact List.mem_of_mem_tail (List.mem_of_head? hhead)
      · exact List.mem_of_head? hhead
    | succ k =>
      rcases ih h.2 hnode with hmem | ⟨j, hj, rfl, start, hstart⟩
      · unfold NodeKind.groupsAfter at hmem
        split at hmem
        · next hkind =>
          rcases List.mem_cons.1 hmem with rfl | hmem
          · exact .inr ⟨0, Nat.succ_pos k, rfl, head, rfl, hkind⟩
          · exact .inl hmem
        · exact .inl (List.mem_of_mem_tail hmem)
        · exact .inl hmem
      · exact .inr ⟨j + 1, by omega, by omega, start, hstart⟩

/-! ## Reading -/

theorem groupsAround_ofItem (groups : List Nat) (item : Item) :
    (NodeKind.ofItem groups item).groupsAround groups = groupsAround groups item := by
  rcases item with (a | q | _ | _ | _ | _ | _) | _ | _ <;> try rfl
  cases a <;> rfl

theorem groupsAfter_ofItem (index : Nat) (groups : List Nat) (item : Item) :
    (NodeKind.ofItem groups item).groupsAfter index groups = groupsAfter index groups item := by
  rcases item with (a | q | _ | _ | _ | _ | _) | _ | _ <;> try rfl
  cases a <;> rfl

/-- The end of a group names the group that is open. -/
theorem head?_of_ofItem {item : Item} (hgroups : item = .token .groupClose → groups ≠ [])
    (h : NodeKind.ofItem groups item = .groupClose g) : groups.head? = some g := by
  rcases item with (a | q | _ | _ | _ | _ | _) | _ | _ <;> try cases h
  · cases a <;> cases h
  · cases groups with
    | nil => exact absurd rfl (hgroups rfl)
    | cons g groups => rfl

theorem wiredAt_bare {kind : NodeKind} (offset length : Nat)
    (hopened : ∀ g, kind = .groupClose g → groups.head? = some g) :
    (bare kind offset length (kind.groupsAround groups).head?).WiredAt groups index where
  group := rfl
  opened := hopened
  next := nofun
  close := nofun
  endsGroup := nofun

/-- **The groups of a pattern that passes the check match, with any markers.** -/
theorem wired_ofItems {before last : Role} {offsets : List Nat} {items : List (Spanned Item)}
    (h : Grammar.checkItems before offsets items = .ok (last, [])) (hlength : offsets.length = groups.length)
    (later : List Node) (hlater : Wired [] (index + items.length) later) :
    Wired groups index (ofItems index groups items ++ later) := by
  induction items generalizing before offsets groups index with
  | nil =>
    obtain ⟨rfl, rfl⟩ := Prod.mk.inj (Except.ok.inj h)
    obtain rfl := List.length_eq_zero_iff.1 hlength.symm
    exact hlater
  | cons item items ih =>
    obtain ⟨offsets', hoffsets, h⟩ := bind_eq_ok_iff.1 h
    obtain ⟨-, -, h⟩ := bind_eq_ok_iff.1 h
    have hclose : item.value = .token .groupClose → groups ≠ [] := by
      rintro heq rfl
      obtain rfl := List.length_eq_zero_iff.1 hlength
      simp [Grammar.groupsAfter, heq] at hoffsets
    have hafter : offsets'.length = (groupsAfter index groups item.value).length := by
      unfold Grammar.groupsAfter at hoffsets
      split at hoffsets
      · next heq =>
        obtain rfl := Except.ok.inj hoffsets
        simp [groupsAfter, heq, hlength]
      · next heq =>
        split at hoffsets
        · cases hoffsets
        · obtain rfl := Except.ok.inj hoffsets
          simp only [groupsAfter, heq, List.length_tail, ← hlength, List.length_cons, Nat.add_sub_cancel]
      · next hopen hclose =>
        obtain rfl := Except.ok.inj hoffsets
        rw [groupsAfter.eq_def]
        split
        · exact absurd ‹_› hopen
        · exact absurd ‹_› hclose
        · exact hlength
    rw [List.length_cons, Nat.add_comm items.length, ← Nat.add_assoc] at hlater
    refine ⟨?_, ?_⟩
    · show (bare _ _ _ _).WiredAt _ _
      rw [← groupsAround_ofItem]
      exact wiredAt_bare _ _ fun g => head?_of_ofItem hclose
    · show Wired ((NodeKind.ofItem groups item.value).groupsAfter index groups) _ _
      rw [groupsAfter_ofItem]
      exact ih h hafter hlater

/-- **A pattern is read into wired nodes, with any markers.** -/
theorem wired_of_read {encoding : Encoding} {markers : Markers} {pattern : List Char} {list : NodeList}
    (h : NodeList.read encoding markers pattern = .ok list) : Wired [] 0 list.nodes := by
  obtain ⟨⟨⟩, hcheck, rfl⟩ := map_eq_ok_iff.1 h
  obtain ⟨⟨last, offsets⟩, hitems, hend⟩ := bind_eq_ok_iff.1 hcheck
  obtain rfl : offsets = [] := by
    cases hreason : (tokens encoding pattern).reason with
    | some e => simp [hreason] at hend
    | none =>
      cases offsets with
      | nil => rfl
      | cons offset offsets => simp [hreason] at hend
  have hsentinel (stop : Nat) (index : Nat) : (bare .sentinel stop 0 none).WiredAt [] index := wiredAt_bare stop 0 nofun
  exact wired_ofItems hitems rfl _ ⟨hsentinel _ _, hsentinel _ _, rfl⟩

/-! ## Rewriting -/

/-- A node is in the place of another, with its links, and is an end of a group only if
it is the same end. -/
structure Replaces (node' node : Node) : Prop where
  kind : node'.kind = node.kind ∨ node'.kind.IsInner ∧ node.kind.IsInner
  group : node'.group = node.group
  next : node'.next = node.next
  close : node'.close = node.close
  endsGroup : node'.endsGroup = node.endsGroup

theorem Replaces.refl (node : Node) : node.Replaces node := ⟨.inl rfl, rfl, rfl, rfl, rfl⟩

theorem Replaces.wiredAt {node' : Node} (h : node'.Replaces node) (hnode : node.WiredAt groups index) :
    node'.WiredAt groups index ∧ node'.kind.groupsAfter index groups = node.kind.groupsAfter index groups := by
  obtain ⟨hgroup, hopened, hnext, hclose, hends⟩ := hnode
  rcases h.kind with heq | ⟨hinner', hinner⟩
  · refine ⟨⟨?_, ?_, h.next ▸ hnext, h.close ▸ hclose, ?_⟩, by rw [heq]⟩
    · rw [h.group, heq, hgroup]
    · rw [heq]
      exact hopened
    · rw [h.endsGroup, h.group]
      exact hends
  · have hsame := NodeKind.groups_of_isInner hinner index groups
    have hsame' := NodeKind.groups_of_isInner hinner' index groups
    refine ⟨⟨?_, ?_, h.next ▸ hnext, h.close ▸ hclose, ?_⟩, by rw [hsame.2, hsame'.2]⟩
    · rw [h.group, hgroup, hsame.1, hsame'.1]
    · exact fun g hkind => absurd hkind (hinner'.2 g)
    · rw [h.endsGroup, h.group]
      exact hends

theorem Wired.replaces (h : Wired groups index nodes) (hnodes : List.Forall₂ Replaces nodes' nodes) :
    Wired groups index nodes' := by
  induction hnodes generalizing groups index with
  | nil => exact h
  | cons hnode _ ih =>
    obtain ⟨hwired, hafter⟩ := hnode.wiredAt h.1
    exact ⟨hwired, hafter ▸ ih h.2⟩

end Node

theorem Collapse.Collapses.replaces {nodes nodes' : List Node} (h : Collapses nodes nodes') :
    List.Forall₂ Node.Replaces nodes' nodes := by
  induction h with
  | nil => exact .nil
  | keep node _ ih => exact .cons (.refl node) ih
  | @set start finish inner nodes nodes' sets length hstart hinner hfinish _ ih =>
    have hleaf {kind : NodeKind} (h : kind.isStructural = false) : kind.IsInner :=
      NodeKind.isInner_of_isStructural h
    have hhollow : List.Forall₂ Node.Replaces (inner.map hollow) inner := by
      rw [List.forall₂_map_left_iff, List.forall₂_same]
      intro node hnode
      refine ⟨.inr ⟨hleaf rfl, ?_⟩, rfl, rfl, rfl, rfl⟩
      rcases hinner.forall_mem node hnode with hbar | hchoice
      · rw [hbar]
        exact NodeKind.isInner_bar
      · obtain ⟨set, hset⟩ := Option.isSome_iff_exists.1 hchoice
        rcases choice?_eq_some hset with ⟨c, hkind, -⟩ | ⟨hkind, -⟩ | ⟨hkind, -⟩
        all_goals
          rw [hkind]
          exact hleaf rfl
    refine .cons ⟨.inr ⟨hleaf rfl, ?_⟩, rfl, rfl, rfl, rfl⟩
      (List.rel_append hhollow (.cons ⟨.inr ⟨hleaf rfl, ?_⟩, rfl, rfl, rfl, rfl⟩ ih))
    · rw [hstart]
      exact NodeKind.isInner_alternationStart
    · rw [hfinish]
      exact NodeKind.isInner_alternationEnd

theorem Coalesce.isInner_of_lone {node : Node} {rest : List Node} {c : Char} (h : lone? node rest = some c) :
    node.kind.IsInner := by
  rw [(lone?_eq_some h).1]
  exact NodeKind.isInner_of_isStructural rfl

theorem Coalesce.replaces_rewrite (inside : Bool) (nodes : List Node) :
    List.Forall₂ Node.Replaces (rewrite inside nodes) nodes := by
  induction inside, nodes using rewrite_induction with
  | nil => exact .nil
  | keep inside node rest _ ih => exact .cons (.refl node) ih
  | first node rest c hlone ih | later node rest c hlone ih =>
    exact .cons ⟨.inr ⟨NodeKind.isInner_of_isStructural rfl, isInner_of_lone hlone⟩, rfl, rfl, rfl, rfl⟩ ih

/-! ## Linking -/

namespace Outlook

/-- Every node that is known of has at least the given index, and as many groups end
on the right as there are open. -/
structure Beyond (opened : List Nat) (index : Nat) (o : Outlook) : Prop where
  follow : ∀ t, o.follow = some t → index ≤ t
  closes : ∀ group ∈ o.groups, ∀ t, group.1 = some t → index ≤ t
  alternations : ∀ link ∈ o.alternations, ∀ t, link = some t → index ≤ t
  depth : o.groups.length = opened.length

variable {o : Outlook} {opened : List Nat} {index : Nat} {node : Node} {nodes : List Node}

theorem closes_setTail (o : Outlook) (tail : Bool) :
    (o.setTail tail).groups.map (·.1) = o.groups.map (·.1) := by
  obtain ⟨follow, groups, alternations⟩ := o
  cases groups <;> rfl

namespace Beyond

theorem empty (index : Nat) : Outlook.empty.Beyond [] index := ⟨nofun, nofun, nofun, rfl⟩

theorem setTail (h : o.Beyond opened index) (tail : Bool) : (o.setTail tail).Beyond opened index := by
  have hcloses := o.closes_setTail tail
  refine ⟨?_, ?_, ?_, ?_⟩
  · rw [follow_setTail]
    exact h.follow
  · intro group hgroup t ht
    have hmem : group.1 ∈ o.groups.map (·.1) := hcloses ▸ List.mem_map_of_mem hgroup
    obtain ⟨group', hgroup', heq⟩ := List.mem_map.1 hmem
    exact h.closes group' hgroup' t (heq.trans ht)
  · rw [alternations_setTail]
    exact h.alternations
  · have hlength := congrArg List.length hcloses
    rw [List.length_map, List.length_map] at hlength
    rw [hlength, h.depth]

theorem mono (h : o.Beyond opened (index + 1)) : o.Beyond opened index where
  follow t ht := Nat.le_of_succ_le (h.follow t ht)
  closes group hgroup t ht := Nat.le_of_succ_le (h.closes group hgroup t ht)
  alternations link hlink t ht := Nat.le_of_succ_le (h.alternations link hlink t ht)
  depth := h.depth

theorem close (h : o.Beyond opened index) (t : Nat) (ht : o.close = some t) : index ≤ t := by
  obtain ⟨follow, closes, alternations⟩ := o
  cases closes with
  | nil => cases ht
  | cons close closes => exact h.closes close List.mem_cons_self t ht

theorem isSome_of_isTail (h : o.Beyond opened index) (htail : o.isTail = true) : opened.head?.isSome = true := by
  obtain ⟨follow, closes, alternations⟩ := o
  have hdepth := h.depth
  cases closes with
  | nil => cases htail
  | cons close closes =>
    cases opened with
    | nil => cases hdepth
    | cons g opened => rfl

end Beyond

theorem groupsAround_of_bears {kind : NodeKind} (h : kind.bearsState = true) (groups : List Nat) :
    kind.groupsAround groups = groups := by
  cases kind <;> first | rfl | cases h

/-- A node that bears a state takes over what is known on its right. -/
theorem wiredAt_visit (h : o.Beyond opened (index + 1)) (hnode : node.WiredAt opened index)
    (hbears : node.kind.bearsState = true) : (o.visit index node).1.WiredAt opened index where
  group := hnode.group
  opened := hnode.opened
  next := h.follow
  close := hnode.close
  endsGroup hends := by
    rcases Bool.or_eq_true_iff.1 hends with hends | htail
    · exact hnode.endsGroup hends
    · show node.group.isSome = true
      rw [hnode.group, groupsAround_of_bears hbears]
      exact h.isSome_of_isTail htail

theorem Beyond.visit (h : o.Beyond opened (index + 1)) (node : Node) :
    (o.visit index node).2.Beyond opened index := by
  have hhere : { o with follow := some index }.Beyond opened index :=
    ⟨fun _ ht => Nat.le_of_eq (Option.some.inj ht), h.mono.closes, h.mono.alternations, h.depth⟩
  exact hhere.setTail false

/-- Linking one node links it to the right, and its index is known on its left. -/
theorem wiredAt_pass (h : o.Beyond (node.kind.groupsAfter index opened) (index + 1))
    (hnode : node.WiredAt opened index) :
    (o.pass index node).1.WiredAt opened index ∧ (o.pass index node).2.Beyond opened index := by
  obtain ⟨kind, offset, length, next, close, group, endsGroup⟩ := node
  cases kind with
  | groupClose g =>
    refine ⟨hnode, h.mono.follow, ?_, h.mono.alternations, ?_⟩
    · exact List.forall_mem_cons.2 ⟨h.mono.follow, h.mono.closes⟩
    · obtain ⟨outer, rfl⟩ := List.head?_eq_some_iff.1 (hnode.opened g rfl)
      exact congrArg (· + 1) h.depth
  | alternationEnd =>
    exact ⟨hnode, h.mono.follow, h.mono.closes, List.forall_mem_cons.2 ⟨h.mono.follow, h.mono.alternations⟩, h.depth⟩
  | bar =>
    have hnext : { o with follow := o.alternations.headD none }.Beyond opened index := by
      refine ⟨fun t ht => ?_, h.mono.closes, h.mono.alternations, h.depth⟩
      cases hlinks : o.alternations with
      | nil =>
        rw [hlinks] at ht
        cases ht
      | cons link links =>
        rw [hlinks] at ht
        exact h.mono.alternations link (hlinks ▸ List.mem_cons_self) t ht
    exact ⟨hnode, hnext.setTail true⟩
  | alternationStart =>
    exact ⟨hnode, h.mono.follow, h.mono.closes, fun link hlink => h.mono.alternations link (List.mem_of_mem_tail hlink),
      h.depth⟩
  | groupOpen =>
    have houter : { o with groups := o.groups.tail }.Beyond opened (index + 1) := by
      refine ⟨h.follow, fun group hgroup => h.closes group (List.mem_of_mem_tail hgroup), h.alternations, ?_⟩
      rw [List.length_tail, h.depth]
      rfl
    have hclosed : (⟨.groupOpen, offset, length, next, o.close, group, endsGroup⟩ : Node).WiredAt opened index :=
      ⟨hnode.group, hnode.opened, hnode.next, h.close, hnode.endsGroup⟩
    exact ⟨wiredAt_visit houter hclosed rfl, houter.visit _⟩
  | sentinel | inert | collapsedEnd | quantifier _ => exact ⟨hnode, h.mono⟩
  | literal _ | bracket _ | dot | anchorStart | anchorEnd | collapsedStart _ =>
    exact ⟨wiredAt_visit h hnode rfl, h.visit _⟩

/-- **Linking keeps nodes wired.** -/
theorem wired_passAll (h : Node.Wired opened index nodes) :
    Node.Wired opened index (Outlook.empty.passAll index nodes).1 ∧
      (Outlook.empty.passAll index nodes).2.Beyond opened index := by
  induction nodes generalizing opened index with
  | nil =>
    obtain rfl := h
    exact ⟨rfl, .empty index⟩
  | cons node rest ih =>
    obtain ⟨hrest, hbeyond⟩ := ih h.2
    obtain ⟨hnode, hleft⟩ := wiredAt_pass hbeyond h.1
    rw [passAll_cons]
    refine ⟨⟨hnode, ?_⟩, hleft⟩
    rw [kind_pass]
    exact hrest

end Outlook

/-- **Every pass keeps nodes wired.** -/
theorem Pass.wired_runAll (passes : List Pass) {nodes : List Node} (h : Node.Wired [] 0 nodes) :
    Node.Wired [] 0 (runAll passes nodes) := by
  refine runAll_induction (motive := Node.Wired [] 0) (fun nodes h => ?collapse) (fun nodes h => ?coalesce)
    (fun nodes h => ?link) passes h
  case collapse => exact h.replaces (Collapse.collapses_rewrite nodes).replaces
  case coalesce => exact h.replaces (Coalesce.replaces_rewrite false nodes)
  case link => exact (Outlook.wired_passAll h).1

end RegexAutomaton
