/-
Where the groups in a list of nodes lie.

A group reaches from its start to the end that closes it, and a node belongs to
the innermost group around it. In wired nodes every end of a group names the
start that it belongs to, and every node names its group (`groupsMatch_of_wired`):
the groups that are open at a node, which a walk knows as a stack, are those
that lie around it (`OpenAt.mem_iff`).
-/
import RegexAutomaton.Proofs.Alternations
import RegexAutomaton.Proofs.GroupStack
import RegexAutomaton.Proofs.OutlineSpots

namespace RegexAutomaton

namespace Node

/-- The end that closes a group, in the nodes after its start. The first of them
has the given index; `depth` further groups are open. -/
def groupEnd? : (depth index : Nat) → List Node → Option Nat
  | _, _, [] => none
  | depth, index, node :: rest =>
    match node.kind with
    | .groupOpen => groupEnd? (depth + 1) (index + 1) rest
    | .groupClose _ =>
      match depth with
      | 0 => some index
      | depth + 1 => groupEnd? depth (index + 1) rest
    | _ => groupEnd? depth (index + 1) rest

/-- There is a group with its start at `o` and its end at `c`. -/
def Group (nodes : List Node) (o c : Nat) : Prop :=
  kindAt? nodes o = some .groupOpen ∧ groupEnd? 0 (o + 1) (nodes.drop (o + 1)) = some c

/-- The group with its start at `o` lies around the node at `i`. -/
def Around (nodes : List Node) (o i : Nat) : Prop := ∃ c, Group nodes o c ∧ o < i ∧ i < c

/-- The innermost group around the node at `i` is the one with the given start,
or there is none. -/
def Innermost (nodes : List Node) (i : Nat) : Option Nat → Prop
  | some o => Around nodes o i ∧ ∀ o', Around nodes o' i → o' ≤ o
  | none => ∀ o, ¬ Around nodes o i

/-- Groups match, and every node names its group. -/
structure GroupsMatch (nodes : List Node) : Prop where
  opens : ∀ o, kindAt? nodes o = some .groupOpen → ∃ c, Group nodes o c
  ends : ∀ o c, Group nodes o c → kindAt? nodes c = some (.groupClose o)
  closes : ∀ o c, kindAt? nodes c = some (.groupClose o) → Group nodes o c
  nests : ∀ o c o' c', Group nodes o c → Group nodes o' c' → o < o' → c < o' ∨ c' < c
  innermost : ∀ i node, nodes[i]? = some node → Innermost nodes i node.group

variable {node : Node} {nodes rest : List Node} {groups : List Nat} {depth index o o' c c' i k : Nat}

/-! ## The end of a group -/

theorem groupEnd?_open (h : node.kind = .groupOpen) (depth index : Nat) :
    groupEnd? depth index (node :: rest) = groupEnd? (depth + 1) (index + 1) rest := by
  simp only [groupEnd?, h]

theorem groupEnd?_close {g : Nat} (h : node.kind = .groupClose g) (index : Nat) :
    groupEnd? 0 index (node :: rest) = some index := by
  simp only [groupEnd?, h]

theorem groupEnd?_close_succ {g : Nat} (h : node.kind = .groupClose g) (depth index : Nat) :
    groupEnd? (depth + 1) index (node :: rest) = groupEnd? depth (index + 1) rest := by
  simp only [groupEnd?, h]

theorem groupEnd?_isInner (h : node.kind.IsInner) (depth index : Nat) :
    groupEnd? depth index (node :: rest) = groupEnd? depth (index + 1) rest := by
  obtain ⟨hopen, hclose⟩ := h
  cases hkind : node.kind with
  | groupOpen => exact absurd hkind hopen
  | groupClose g => exact absurd hkind (hclose g)
  | _ => simp only [groupEnd?, hkind]

theorem le_of_groupEnd? (h : groupEnd? depth index nodes = some c) : index ≤ c := by
  induction nodes generalizing depth index with
  | nil => cases h
  | cons node rest ih =>
    have hlater {depth : Nat} (h : groupEnd? depth (index + 1) rest = some c) : index ≤ c := Nat.le_of_succ_le (ih h)
    simp only [groupEnd?] at h
    split at h
    · exact hlater h
    · split at h
      · exact Nat.le_of_eq (Option.some.inj h)
      · exact hlater h
    · exact hlater h

theorem kindAt?_of_groupEnd? (h : groupEnd? depth index nodes = some c) :
    ∃ g, kindAt? nodes (c - index) = some (.groupClose g) := by
  induction nodes generalizing depth index with
  | nil => cases h
  | cons node rest ih =>
    have hlater {depth : Nat} (h : groupEnd? depth (index + 1) rest = some c) :
        ∃ g, kindAt? (node :: rest) (c - index) = some (.groupClose g) := by
      have hle := le_of_groupEnd? h
      obtain ⟨g, hg⟩ := ih h
      rw [show c - index = c - (index + 1) + 1 by omega]
      exact ⟨g, hg⟩
    simp only [groupEnd?] at h
    split at h
    · exact hlater h
    · next g hkind =>
      split at h
      · obtain rfl := Option.some.inj h
        rw [Nat.sub_self, kindAt?, List.getElem?_cons_zero, Option.map_some, hkind]
        exact ⟨g, rfl⟩
      · exact hlater h
    · exact hlater h

theorem Group.lt (h : Group nodes o c) : o < c := le_of_groupEnd? h.2

theorem Group.exists_close (h : Group nodes o c) : ∃ g, kindAt? nodes c = some (.groupClose g) := by
  obtain ⟨g, hg⟩ := kindAt?_of_groupEnd? h.2
  have hlt := h.lt
  rw [kindAt?, List.getElem?_drop, show o + 1 + (c - (o + 1)) = c by omega] at hg
  exact ⟨g, hg⟩

theorem Group.eq (h : Group nodes o c) (h' : Group nodes o c') : c = c' := Option.some.inj (h.2.symm.trans h'.2)

/-! ## The groups that are open -/

/-- The groups that are open before the node at `k`, the innermost first. -/
structure OpenAt (nodes : List Node) (k : Nat) (groups : List Nat) : Prop where
  sorted : groups.Pairwise (· > ·)
  opened : ∀ depth o, groups[depth]? = some o → kindAt? nodes o = some .groupOpen ∧ o < k ∧
    groupEnd? 0 (o + 1) (nodes.drop (o + 1)) = groupEnd? depth k (nodes.drop k)
  closed : ∀ o < k, kindAt? nodes o = some .groupOpen → o ∈ groups ∨ ∃ c < k, Group nodes o c

namespace OpenAt

theorem zero (nodes : List Node) : OpenAt nodes 0 [] := ⟨.nil, nofun, nofun⟩

theorem lt_of_mem (h : OpenAt nodes k groups) (ho : o ∈ groups) : o < k := by
  obtain ⟨depth, hdepth⟩ := List.mem_iff_getElem?.1 ho
  exact (h.opened depth o hdepth).2.1

/-- The groups that are open at a node are those that have started and not
ended. -/
theorem mem_iff (h : OpenAt nodes k groups) (hgroup : Group nodes o c) : o ∈ groups ↔ o < k ∧ k ≤ c := by
  constructor
  · intro ho
    obtain ⟨depth, hdepth⟩ := List.mem_iff_getElem?.1 ho
    obtain ⟨-, hlt, hend⟩ := h.opened depth o hdepth
    exact ⟨hlt, le_of_groupEnd? (hend.symm.trans hgroup.2)⟩
  · rintro ⟨hlt, hle⟩
    rcases h.closed o hlt hgroup.1 with ho | ⟨c', hc', hgroup'⟩
    · exact ho
    · obtain rfl := hgroup.eq hgroup'
      omega

theorem group_of_close {g : Nat} (h : OpenAt nodes k (o :: groups)) (hnode : kindAt? nodes k = some (.groupClose g)) :
    Group nodes o k := by
  obtain ⟨hopen, -, hend⟩ := h.opened 0 o rfl
  obtain ⟨node, hnode, hkind⟩ := exists_of_kindAt? hnode
  obtain ⟨hlt, rfl⟩ := List.getElem?_eq_some_iff.1 hnode
  refine ⟨hopen, hend.trans ?_⟩
  rw [List.drop_eq_getElem_cons hlt, groupEnd?_close hkind]

/-- One node of the walk. -/
theorem step (h : OpenAt nodes k groups) (hnode : nodes[k]? = some node) (hwired : node.WiredAt groups k) :
    OpenAt nodes (k + 1) (node.kind.groupsAfter k groups) := by
  obtain ⟨hlt, hget⟩ := List.getElem?_eq_some_iff.1 hnode
  have hdrop : nodes.drop k = node :: nodes.drop (k + 1) := by rw [List.drop_eq_getElem_cons hlt, hget]
  have hkindAt : kindAt? nodes k = some node.kind := by rw [kindAt?, hnode, Option.map_some]
  have hclosed (hne : node.kind ≠ .groupOpen) (o : Nat) (ho : o < k + 1) (hopen : kindAt? nodes o = some .groupOpen) :
      o ∈ groups ∨ ∃ c < k, Group nodes o c := by
    rcases Nat.eq_or_lt_of_le (Nat.le_of_lt_succ ho) with rfl | hlt
    · exact absurd (Option.some.inj (hkindAt.symm.trans hopen)) hne
    · exact h.closed o hlt hopen
  cases hkind : node.kind with
  | groupOpen =>
    refine ⟨List.pairwise_cons.2 ⟨fun o ho => h.lt_of_mem ho, h.sorted⟩, ?_, ?_⟩
    · intro depth o hdepth
      cases depth with
      | zero =>
        obtain rfl := Option.some.inj hdepth
        exact ⟨hkindAt.trans (congrArg some hkind), Nat.lt_succ_self k, rfl⟩
      | succ depth =>
        obtain ⟨hopen, ho, hend⟩ := h.opened depth o hdepth
        refine ⟨hopen, Nat.lt_succ_of_lt ho, hend.trans ?_⟩
        rw [hdrop, groupEnd?_open hkind]
    · intro o ho hopen
      rcases Nat.eq_or_lt_of_le (Nat.le_of_lt_succ ho) with rfl | hlt
      · exact .inl List.mem_cons_self
      · rcases h.closed o hlt hopen with hmem | ⟨c, hc, hgroup⟩
        · exact .inl (List.mem_cons_of_mem _ hmem)
        · exact .inr ⟨c, Nat.lt_succ_of_lt hc, hgroup⟩
  | groupClose g =>
    obtain ⟨outer, rfl⟩ := List.head?_eq_some_iff.1 (hwired.opened g hkind)
    refine ⟨(List.pairwise_cons.1 h.sorted).2, ?_, ?_⟩
    · intro depth o hdepth
      obtain ⟨hopen, ho, hend⟩ := h.opened (depth + 1) o hdepth
      refine ⟨hopen, Nat.lt_succ_of_lt ho, hend.trans ?_⟩
      rw [hdrop, groupEnd?_close_succ hkind]
    · intro o ho hopen
      have hne : node.kind ≠ .groupOpen := fun h => by cases hkind.symm.trans h
      rcases hclosed hne o ho hopen with hmem | ⟨c, hc, hgroup⟩
      · rcases List.mem_cons.1 hmem with rfl | hmem
        · exact .inr ⟨k, Nat.lt_succ_self k, h.group_of_close (hkindAt.trans (congrArg some hkind))⟩
        · exact .inl hmem
      · exact .inr ⟨c, Nat.lt_succ_of_lt hc, hgroup⟩
  | _ =>
    have hinner : node.kind.IsInner := by
      rw [hkind]
      exact ⟨fun h => (by cases h), fun g h => (by cases h)⟩
    refine ⟨h.sorted, ?_, ?_⟩
    · intro depth o hdepth
      obtain ⟨hopen, ho, hend⟩ := h.opened depth o hdepth
      refine ⟨hopen, Nat.lt_succ_of_lt ho, hend.trans ?_⟩
      rw [hdrop, groupEnd?_isInner hinner]
    · intro o ho hopen
      rcases hclosed hinner.1 o ho hopen with hmem | ⟨c, hc, hgroup⟩
      · exact .inl hmem
      · exact .inr ⟨c, Nat.lt_succ_of_lt hc, hgroup⟩

end OpenAt

/-- **A walk over wired nodes knows the groups that are open.** -/
theorem Wired.exists_openAt (h : Wired [] 0 nodes) (hk : k ≤ nodes.length) :
    ∃ groups, OpenAt nodes k groups ∧ Wired groups k (nodes.drop k) := by
  induction k with
  | zero => exact ⟨[], .zero nodes, h⟩
  | succ k ih =>
    obtain ⟨groups, hopen, hwired⟩ := ih (Nat.le_of_succ_le hk)
    rw [List.drop_eq_getElem_cons hk] at hwired
    exact ⟨_, hopen.step (List.getElem?_eq_getElem hk) hwired.1, hwired.2⟩

/-! ## Groups match -/

theorem Wired.exists_group (h : Wired [] 0 nodes) (ho : kindAt? nodes o = some .groupOpen) : ∃ c, Group nodes o c := by
  obtain ⟨groups, hopen, hwired⟩ := h.exists_openAt (Nat.le_refl nodes.length)
  rw [List.drop_length] at hwired
  obtain rfl : groups = [] := hwired
  rcases hopen.closed o (lt_length_of_kindAt? ho) ho with hmem | ⟨c, -, hgroup⟩
  · cases hmem
  · exact ⟨c, hgroup⟩

/-- The groups that are open at the end of a group. -/
theorem Wired.exists_openAt_close (h : Wired [] 0 nodes) (hc : kindAt? nodes c = some (.groupClose o)) :
    ∃ outer, OpenAt nodes c (o :: outer) ∧ OpenAt nodes (c + 1) outer := by
  obtain ⟨node, hnode, hkind⟩ := exists_of_kindAt? hc
  have hlt := lt_length_of_kindAt? hc
  obtain ⟨groups, hopen, hwired⟩ := h.exists_openAt (Nat.le_of_lt hlt)
  rw [List.drop_eq_getElem_cons hlt, (List.getElem?_eq_some_iff.1 hnode).2] at hwired
  obtain ⟨outer, rfl⟩ := List.head?_eq_some_iff.1 (hwired.1.opened o hkind)
  have hafter := hopen.step hnode hwired.1
  rw [hkind] at hafter
  exact ⟨outer, hopen, hafter⟩

theorem Wired.kindAt?_of_group (h : Wired [] 0 nodes) (hgroup : Group nodes o c) :
    kindAt? nodes c = some (.groupClose o) := by
  obtain ⟨g, hg⟩ := hgroup.exists_close
  obtain ⟨outer, hopen, hafter⟩ := h.exists_openAt_close hg
  rcases List.mem_cons.1 ((hopen.mem_iff hgroup).2 ⟨hgroup.lt, Nat.le_refl c⟩) with rfl | hmem
  · exact hg
  · have := (hafter.mem_iff hgroup).1 hmem
    omega

/-- The groups around a node are those that are open, without the group that it
ends. -/
theorem OpenAt.mem_groupsAround_iff (h : OpenAt nodes i groups) (hnode : nodes[i]? = some node)
    (hwired : node.WiredAt groups i) (hgroup : Group nodes o c) :
    o ∈ node.kind.groupsAround groups ↔ o < i ∧ i < c := by
  have hkindAt : kindAt? nodes i = some node.kind := by rw [kindAt?, hnode, Option.map_some]
  by_cases hclose : ∃ g, node.kind = .groupClose g
  · obtain ⟨g, hkind⟩ := hclose
    have hafter := h.step hnode hwired
    rw [hkind] at hafter ⊢
    have hne : o ≠ i := by
      rintro rfl
      have := hkindAt.symm.trans hgroup.1
      rw [hkind] at this
      cases this
    refine (hafter.mem_iff hgroup).trans ?_
    omega
  · have haround : node.kind.groupsAround groups = groups := by
      unfold NodeKind.groupsAround
      split
      · next g hkind => exact absurd ⟨g, hkind⟩ hclose
      · rfl
    have hne : i ≠ c := by
      rintro rfl
      obtain ⟨g, hg⟩ := hgroup.exists_close
      exact hclose ⟨g, Option.some.inj (hkindAt.symm.trans hg)⟩
    rw [haround, h.mem_iff hgroup]
    omega

/-- **In wired nodes groups match, and every node names its group.** -/
theorem groupsMatch_of_wired (h : Wired [] 0 nodes) : GroupsMatch nodes where
  opens _ ho := h.exists_group ho
  ends _ _ hgroup := h.kindAt?_of_group hgroup
  closes o c hc := by
    obtain ⟨outer, hopen, -⟩ := h.exists_openAt_close hc
    exact hopen.group_of_close hc
  nests o c o' c' hgroup hgroup' hlt := by
    obtain ⟨outer, hopen, -⟩ := h.exists_openAt_close (h.kindAt?_of_group hgroup)
    by_contra hcross
    have hne : o' ≠ c := by
      rintro rfl
      cases hgroup'.1.symm.trans (h.kindAt?_of_group hgroup)
    have hmem : o' ∈ o :: outer := (hopen.mem_iff hgroup').2 (by omega)
    rcases List.mem_cons.1 hmem with rfl | hmem
    · omega
    · have := (List.pairwise_cons.1 hopen.sorted).1 o' hmem
      omega
  innermost i node hnode := by
    obtain ⟨hlt, hget⟩ := List.getElem?_eq_some_iff.1 hnode
    obtain ⟨groups, hopen, hwired⟩ := h.exists_openAt (Nat.le_of_lt hlt)
    rw [List.drop_eq_getElem_cons hlt, hget] at hwired
    have hsorted : (node.kind.groupsAround groups).Pairwise (· > ·) := by
      unfold NodeKind.groupsAround
      split
      · exact hopen.sorted.tail
      · exact hopen.sorted
    have hmem (o : Nat) : Around nodes o i ↔ o ∈ node.kind.groupsAround groups := by
      constructor
      · rintro ⟨c, hgroup, hbetween⟩
        exact (hopen.mem_groupsAround_iff hnode hwired.1 hgroup).2 hbetween
      · intro ho
        have hopened : o ∈ groups := by
          unfold NodeKind.groupsAround at ho
          split at ho
          · exact List.mem_of_mem_tail ho
          · exact ho
        obtain ⟨depth, hdepth⟩ := List.mem_iff_getElem?.1 hopened
        obtain ⟨c, hgroup⟩ := h.exists_group (hopen.opened depth o hdepth).1
        exact ⟨c, hgroup, (hopen.mem_groupsAround_iff hnode hwired.1 hgroup).1 ho⟩
    rw [hwired.1.group]
    cases haround : node.kind.groupsAround groups with
    | nil =>
      intro o ho
      rw [hmem, haround] at ho
      cases ho
    | cons g outer =>
      rw [haround] at hsorted hmem
      refine ⟨(hmem g).2 List.mem_cons_self, fun o ho => ?_⟩
      rcases List.mem_cons.1 ((hmem o).1 ho) with rfl | ho
      · exact Nat.le_refl o
      · exact Nat.le_of_lt ((List.pairwise_cons.1 hsorted).1 o ho)

/-! ## Nodes of the same kinds -/

section
variable {nodes' : List Node} {g : Option Nat}

theorem kindAt?_congr (h : nodes.map (·.kind) = nodes'.map (·.kind)) (i : Nat) :
    kindAt? nodes i = kindAt? nodes' i := by
  rw [kindAt?, ← List.getElem?_map, h, List.getElem?_map, kindAt?]

theorem groupEnd?_congr (h : nodes.map (·.kind) = nodes'.map (·.kind)) (depth index : Nat) :
    groupEnd? depth index nodes = groupEnd? depth index nodes' := by
  induction nodes generalizing nodes' depth index with
  | nil =>
    obtain rfl := List.map_eq_nil_iff.1 h.symm
    rfl
  | cons node nodes ih =>
    cases nodes' with
    | nil => cases h
    | cons node' nodes' =>
      obtain ⟨hkind, hrest⟩ := List.cons_eq_cons.1 h
      simp only at hkind
      simp only [groupEnd?, hkind, ih hrest]

theorem group_congr (h : nodes.map (·.kind) = nodes'.map (·.kind)) : Group nodes o c ↔ Group nodes' o c := by
  have hdrop : (nodes.drop (o + 1)).map (·.kind) = (nodes'.drop (o + 1)).map (·.kind) := by
    rw [List.map_drop, h, List.map_drop]
  rw [Group, kindAt?_congr h, groupEnd?_congr hdrop, Group]

theorem innermost_congr (h : nodes.map (·.kind) = nodes'.map (·.kind)) :
    Innermost nodes i g ↔ Innermost nodes' i g := by
  have haround (o : Nat) : Around nodes o i ↔ Around nodes' o i := by simp only [Around, group_congr h]
  cases g <;> simp only [Innermost, haround]

end

end Node

/-! ## The groups of an outline -/

namespace Outline

open Node

theorem groupEnd?_wrap {barred : Bool} {nodes : List Node} (g : Option Nat) (later : List Node) (depth index : Nat)
    (h : ∀ index later, groupEnd? depth index (nodes ++ later) = groupEnd? depth (index + nodes.length) later) :
    groupEnd? depth index (wrap barred g nodes ++ later) =
      groupEnd? depth (index + (wrap barred g nodes).length) later := by
  unfold wrap
  split
  · rw [List.cons_append, List.append_assoc, groupEnd?_isInner NodeKind.isInner_alternationStart, h,
      List.singleton_append, groupEnd?_isInner NodeKind.isInner_alternationEnd]
    simp only [List.length_cons, List.length_append, List.length_nil]
    congr 1
    omega
  · exact h index later

/-- The groups in an outline are closed in it. -/
theorem groupEnd?_nodes (o : Outline) (g : Option Nat) (i depth index : Nat) (later : List Node) :
    groupEnd? depth index (o.nodes g i ++ later) = groupEnd? depth (index + o.length) later := by
  induction o generalizing g i depth index later with
  | nil => rfl
  | leaf kind hleaf rest ih =>
    rw [nodes, List.cons_append, groupEnd?_isInner (NodeKind.isInner_of_isStructural hleaf), ih, length]
    congr 1
    omega
  | bar rest ih =>
    rw [nodes, List.cons_append, groupEnd?_isInner NodeKind.isInner_bar, ih, length]
    congr 1
    omega
  | group inner rest ihInner ihRest =>
    have hbody (index : Nat) (later : List Node) : groupEnd? (depth + 1) index (inner.body (some i) (i + 1) ++ later) =
        groupEnd? (depth + 1) (index + inner.span) later := by
      rw [body, groupEnd?_wrap _ _ _ _ fun index later => by rw [ihInner, length_nodes],
        inner.length_wrap _ (inner.length_nodes _ _)]
    rw [nodes_group, List.cons_append, groupEnd?_open rfl, List.append_assoc, hbody, List.cons_append,
      groupEnd?_close_succ rfl, ihRest, length_group]
    congr 1
    omega

theorem groupEnd?_body (o : Outline) (g : Option Nat) (i depth index : Nat) (later : List Node) :
    groupEnd? depth index (o.body g i ++ later) = groupEnd? depth (index + o.span) later := by
  rw [body, groupEnd?_wrap _ _ _ _ fun index later => by rw [groupEnd?_nodes, length_nodes],
    o.length_wrap _ (o.length_nodes _ _)]

end Outline

end RegexAutomaton
