/-
How the groups and alternations of a pattern lie in its list of nodes.

`Layout` follows a body of the pattern through the list: what stands between
two ends of a group names that group, and bars stand only between the ends of
an alternation that is a whole body. The nodes of a phrase lie so
(`laidOut_of_phrase`), and rewriting leaves them so.
-/
import RegexAutomaton.Proofs.Coalescing
import RegexAutomaton.Proofs.Collapsing
import RegexAutomaton.Proofs.LiteralRuns
import RegexAutomaton.Proofs.Parsing

namespace RegexAutomaton

/-- Whether a node is an end of a group, an end of an alternation or a bar. -/
def NodeKind.isStructural : NodeKind → Bool
  | groupOpen | groupClose _ | alternationStart | bar | alternationEnd => true
  | _ => false

/-- What part of a body some nodes are. -/
inductive Part where
  /-- A whole body. -/
  | body
  /-- The rest of a body, from some node on. -/
  | rest (barred : Bool)
  deriving DecidableEq, Repr

/-- Where the bodies of the groups lie in nodes, the first of which has the
given index. All of them lie in the given group, if in any. -/
inductive Layout : Part → (group : Option Nat) → (index : Nat) → List Node → Prop
  | nil {barred : Bool} {g : Option Nat} {i : Nat} : Layout (.rest barred) g i []
  | leaf {barred : Bool} {g : Option Nat} {i : Nat} {node : Node} {nodes : List Node}
      (hkind : node.kind.isStructural = false)
      (hgroup : node.kind.bearsState = true → node.group = g ∧ node.endsGroup = false)
      (h : Layout (.rest barred) g (i + 1) nodes) : Layout (.rest barred) g i (node :: nodes)
  | bar {g : Option Nat} {i : Nat} {node : Node} {nodes : List Node} (hkind : node.kind = .bar)
      (h : Layout (.rest true) g (i + 1) nodes) : Layout (.rest true) g i (node :: nodes)
  | group {barred : Bool} {g : Option Nat} {i opened : Nat} {start finish : Node}
      {inner nodes : List Node} (hstart : start.kind = .groupOpen)
      (hgroup : start.group = g ∧ start.endsGroup = false) (hinner : Layout .body (some i) (i + 1) inner)
      (hfinish : finish.kind = .groupClose opened)
      (h : Layout (.rest barred) g (i + 1 + inner.length + 1) nodes) :
      Layout (.rest barred) g i (start :: (inner ++ finish :: nodes))
  | plain {g : Option Nat} {i : Nat} {nodes : List Node} (h : Layout (.rest false) g i nodes) :
      Layout .body g i nodes
  | marked {g : Option Nat} {i : Nat} {start finish : Node} {inner : List Node}
      (hstart : start.kind = .alternationStart) (hgroup : start.group = g ∧ start.endsGroup = false)
      (hinner : Layout (.rest true) g (i + 1) inner) (hfinish : finish.kind = .alternationEnd) :
      Layout .body g i (start :: (inner ++ [finish]))

/-! ## The nodes of a phrase -/

theorem Node.groups_of_isLeaf {t : Token} (h : t.IsLeaf) (index : Nat) (groups : List Nat) :
    groupsAround groups (.token t) = groups ∧ groupsAfter index groups (.token t) = groups := by
  cases t with
  | groupOpen => exact absurd rfl h.1
  | groupClose => exact absurd rfl h.2
  | _ => exact ⟨rfl, rfl⟩

theorem NodeKind.isStructural_of_isLeaf {t : Token} (h : t.IsLeaf) (hbar : t ≠ .bar) (groups : List Nat) :
    (ofItem groups (.token t)).isStructural = false := by
  cases t with
  | groupOpen => exact absurd rfl h.1
  | groupClose => exact absurd rfl h.2
  | bar => exact absurd rfl hbar
  | atom a => cases a <;> rfl
  | _ => rfl

namespace Phrase

/-- Items come to lie as some part of a body, whatever comes after them. -/
def LieAs (part : Part) (groups : List Nat) (index : Nat) (items : List (Spanned Item)) : Prop :=
  ∃ nodes, Layout part groups.head? index nodes ∧ ∀ later,
    Node.ofItems index groups (items ++ later) =
      nodes ++ Node.ofItems (index + nodes.length) groups later

theorem lieAs_mark {p : Phrase} {groups : List Nat} {index : Nat} (first last : Nat)
    (h : ∀ index barred, (p.barred = true → barred = true) → LieAs (.rest barred) groups index p.items) :
    LieAs .body groups index (mark p.barred first last p.items) := by
  unfold mark
  split
  · obtain ⟨nodes, hlayout, hnodes⟩ := h (index + 1) true fun _ => rfl
    obtain ⟨start, hstart⟩ : ∃ node, node = Node.ofItem groups ⟨.alternationStart, first, 0⟩ := ⟨_, rfl⟩
    obtain ⟨finish, hfinish⟩ : ∃ node, node = Node.ofItem groups ⟨.alternationEnd, last, 0⟩ := ⟨_, rfl⟩
    refine ⟨start :: (nodes ++ [finish]), ?_, fun later => ?_⟩
    · exact .marked (by rw [hstart]; rfl) (by rw [hstart]; exact ⟨rfl, rfl⟩) hlayout (by rw [hfinish]; rfl)
    · have hplace : index + (start :: (nodes ++ [finish])).length = index + 1 + nodes.length + 1 := by
        simp only [List.length_cons, List.length_append, List.length_nil]
        omega
      have hitems := hnodes (⟨.alternationEnd, last, 0⟩ :: later)
      simp only [List.cons_append, List.append_assoc, List.nil_append, hplace]
      rw [Node.ofItems, ← hstart]
      show start :: Node.ofItems (index + 1) groups _ = _
      rw [hitems, Node.ofItems, ← hfinish]
      rfl
  · next hbarred =>
    obtain ⟨nodes, hlayout, hnodes⟩ := h index false fun hb => absurd hb hbarred
    exact ⟨nodes, .plain hlayout, hnodes⟩

theorem lieAs_items (p : Phrase) (groups : List Nat) (index : Nat) (barred : Bool)
    (hbarred : p.barred = true → barred = true) : LieAs (.rest barred) groups index p.items := by
  induction p generalizing groups index barred with
  | nil => exact ⟨[], .nil, fun later => rfl⟩
  | leaf t hleaf rest ih =>
    have hrest : rest.barred = true → barred = true := fun h => hbarred (by simp [Phrase.barred, h])
    obtain ⟨nodes, hlayout, hnodes⟩ := ih groups (index + 1) barred hrest
    obtain ⟨haround, hafter⟩ := Node.groups_of_isLeaf hleaf index groups
    refine ⟨Node.ofItem groups (t.map .token) :: nodes, ?_, fun later => ?_⟩
    · by_cases hbar : t.value = .bar
      · obtain rfl : barred = true := hbarred (by simp [Phrase.barred, hbar])
        refine .bar ?_ hlayout
        show NodeKind.ofItem groups (.token t.value) = .bar
        rw [hbar]
        rfl
      · refine .leaf (NodeKind.isStructural_of_isLeaf hleaf hbar groups) (fun _ => ⟨?_, rfl⟩) hlayout
        show (Node.groupsAround groups (.token t.value)).head? = groups.head?
        rw [haround]
    · show Node.ofItem groups (t.map .token) ::
        Node.ofItems (index + 1) (Node.groupsAfter index groups (.token t.value)) (rest.items ++ later) = _
      rw [hafter, hnodes, List.length_cons, List.cons_append, Nat.add_assoc, Nat.add_comm 1]
  | group o inner z rest ihInner ihRest =>
    obtain ⟨nodes, hlayout, hnodes⟩ :=
      @lieAs_mark inner (index :: groups) (index + 1) (o + 1) z (ihInner (index :: groups))
    obtain ⟨nodes', hlayout', hnodes'⟩ := ihRest groups (index + 1 + nodes.length + 1) barred hbarred
    obtain ⟨start, hstart⟩ : ∃ node, node = Node.ofItem groups ⟨.token .groupOpen, o, 1⟩ := ⟨_, rfl⟩
    obtain ⟨finish, hfinish⟩ :
        ∃ node, node = Node.ofItem (index :: groups) ⟨.token .groupClose, z, 1⟩ := ⟨_, rfl⟩
    refine ⟨start :: (nodes ++ finish :: nodes'), ?_, fun later => ?_⟩
    · exact .group (by rw [hstart]; rfl) (by rw [hstart]; exact ⟨rfl, rfl⟩) hlayout
        (by rw [hfinish]; rfl) hlayout'
    · have hplace : index + (start :: (nodes ++ finish :: nodes')).length =
          index + 1 + nodes.length + 1 + nodes'.length := by
        simp only [List.length_cons, List.length_append]
        omega
      have hitems := hnodes (⟨.token .groupClose, z, 1⟩ :: (rest.items ++ later))
      simp only [items, List.cons_append, List.append_assoc, hplace]
      rw [Node.ofItems, ← hstart]
      show start :: Node.ofItems (index + 1) (index :: groups) _ = _
      rw [hitems, Node.ofItems, ← hfinish]
      show start :: (nodes ++ finish :: Node.ofItems (index + 1 + nodes.length + 1) groups _) = _
      rw [hnodes']

end Phrase

/-! ## Collapsing -/

namespace Collapse

/-- The first of some nodes stays, or starts an alternation that becomes a
set. -/
theorem Collapses.of_cons {node : Node} {rest out : List Node} (h : Collapses (node :: rest) out) :
    (∃ rest', out = node :: rest' ∧ Collapses rest rest') ∨
      ∃ inner finish later later' sets length, node.kind = .alternationStart ∧
        rest = inner ++ finish :: later ∧ Choices inner sets ∧ finish.kind = .alternationEnd ∧
        Collapses later later' ∧
        out = { node with kind := .collapsedStart (.union sets), length } ::
          (inner.map hollow ++ { finish with kind := .collapsedEnd } :: later') := by
  generalize hnodes : node :: rest = nodes at h
  cases h with
  | nil => cases hnodes
  | keep node' h =>
    obtain ⟨rfl, rfl⟩ := List.cons.inj hnodes
    exact .inl ⟨_, rfl, h⟩
  | set length hstart hinner hfinish h =>
    obtain ⟨rfl, rfl⟩ := List.cons.inj hnodes
    exact .inr ⟨_, _, _, _, _, length, hstart, rfl, hinner, hfinish, h, rfl⟩

theorem Collapses.of_cons_ne {node : Node} {rest out : List Node} (h : Collapses (node :: rest) out)
    (hkind : node.kind ≠ .alternationStart) : ∃ rest', out = node :: rest' ∧ Collapses rest rest' := by
  rcases h.of_cons with hkeep | ⟨_, _, _, _, _, _, hstart, -⟩
  · exact hkeep
  · exact absurd hstart hkind

theorem layout_hollow {g : Option Nat} (inner nodes : List Node) {index : Nat}
    (h : Layout (.rest false) g (index + inner.length) nodes) :
    Layout (.rest false) g index (inner.map hollow ++ nodes) := by
  induction inner generalizing index with
  | nil => exact h
  | cons node inner ih =>
    rw [List.length_cons, Nat.add_comm inner.length, ← Nat.add_assoc] at h
    exact .leaf rfl nofun (ih h)

end Collapse

/-- What does not end an alternation comes before what does. -/
theorem Node.eq_cons_of_append_eq {node finish : Node} {rest inner later : List Node}
    (hkind : node.kind ≠ .alternationEnd) (hfinish : finish.kind = .alternationEnd)
    (heq : node :: rest = inner ++ finish :: later) :
    ∃ inner', inner = node :: inner' ∧ rest = inner' ++ finish :: later := by
  cases inner with
  | nil =>
    obtain ⟨rfl, -⟩ := List.cons.inj heq
    exact absurd hfinish hkind
  | cons node' inner' =>
    obtain ⟨rfl, hrest⟩ := List.cons.inj heq
    exact ⟨inner', rfl, hrest⟩

open Collapse in
/-- The end of an alternation of single choices is the end of its body. -/
theorem Layout.eq_of_choices {barred : Bool} {g : Option Nat} {index : Nat} {inner : List Node}
    (h : Layout (.rest barred) g index inner) {finish finish' : Node} {inner' later later' : List Node}
    (hfinish : finish.kind = .alternationEnd) (hfinish' : finish'.kind = .alternationEnd)
    (hchoices : ∀ node ∈ inner', node.kind = .bar ∨ (choice? node.kind).isSome)
    (heq : inner ++ finish :: later = inner' ++ finish' :: later') :
    inner = inner' ∧ finish = finish' ∧ later = later' := by
  generalize hpart : Part.rest barred = part at h
  induction h generalizing inner' with
  | plain | marked => cases hpart
  | nil =>
    cases inner' with
    | nil =>
      obtain ⟨rfl, rfl⟩ := List.cons.inj heq
      exact ⟨rfl, rfl, rfl⟩
    | cons node inner' =>
      obtain ⟨rfl, -⟩ := List.cons.inj heq
      have hchoice := hchoices _ List.mem_cons_self
      rw [hfinish] at hchoice
      exact absurd hchoice (by decide)
  | leaf hkind _ _ ih =>
    obtain ⟨inner', rfl, hrest⟩ := Node.eq_cons_of_append_eq (fun hend => by
      rw [hend] at hkind
      cases hkind) hfinish' heq
    obtain ⟨rfl, hfinishes⟩ := ih (List.forall_mem_cons.1 hchoices).2 hrest hpart
    exact ⟨rfl, hfinishes⟩
  | bar hkind _ ih =>
    obtain ⟨inner', rfl, hrest⟩ := Node.eq_cons_of_append_eq (by simp [hkind]) hfinish' heq
    obtain ⟨rfl, hfinishes⟩ := ih (List.forall_mem_cons.1 hchoices).2 hrest hpart
    exact ⟨rfl, hfinishes⟩
  | group hstart =>
    obtain ⟨inner', rfl, -⟩ := Node.eq_cons_of_append_eq (by simp [hstart]) hfinish' heq
    have hchoice := hchoices _ List.mem_cons_self
    rw [hstart] at hchoice
    exact absurd hchoice (by decide)

open Collapse in
/-- Collapsing keeps bodies where they lie. -/
theorem Layout.collapses {part : Part} {g : Option Nat} {index : Nat} {nodes later out : List Node}
    (h : Layout part g index nodes) (hc : Collapses (nodes ++ later) out) :
    ∃ nodes' later', out = nodes' ++ later' ∧ Collapses later later' ∧
      nodes'.length = nodes.length ∧ Layout part g index nodes' := by
  induction h generalizing later out with
  | nil => exact ⟨[], out, rfl, hc, rfl, .nil⟩
  | leaf hkind hgroup _ ih =>
    obtain ⟨out', rfl, hrest⟩ := hc.of_cons_ne fun hstart => by
      rw [hstart] at hkind
      cases hkind
    obtain ⟨nodes', later', rfl, hlater, hlen, hlayout⟩ := ih hrest
    exact ⟨_ :: nodes', later', rfl, hlater, congrArg (· + 1) hlen, .leaf hkind hgroup hlayout⟩
  | bar hkind _ ih =>
    obtain ⟨out', rfl, hrest⟩ := hc.of_cons_ne (by simp [hkind])
    obtain ⟨nodes', later', rfl, hlater, hlen, hlayout⟩ := ih hrest
    exact ⟨_ :: nodes', later', rfl, hlater, congrArg (· + 1) hlen, .bar hkind hlayout⟩
  | group hstart hgroup _ hfinish _ ihInner ihRest =>
    rw [List.cons_append, List.append_assoc] at hc
    obtain ⟨out', rfl, hbody⟩ := hc.of_cons_ne (by simp [hstart])
    obtain ⟨inner', out', rfl, hend, hinnerLen, hinner⟩ := ihInner hbody
    obtain ⟨out', rfl, hrest⟩ := Collapses.of_cons_ne hend (by simp [hfinish])
    obtain ⟨nodes', later', rfl, hlater, hlen, hlayout⟩ := ihRest hrest
    rw [← hinnerLen] at hlayout
    refine ⟨_ :: (inner' ++ _ :: nodes'), later', ?_, hlater, ?_,
      .group hstart hgroup hinner hfinish hlayout⟩
    · simp
    · simp [hinnerLen, hlen]
  | plain _ ih =>
    obtain ⟨nodes', later', hout, hlater, hlen, hlayout⟩ := ih hc
    exact ⟨nodes', later', hout, hlater, hlen, .plain hlayout⟩
  | @marked g i start finish inner hstart hgroup hinner hfinish ih =>
    rw [List.cons_append, List.append_assoc] at hc
    rcases hc.of_cons with ⟨out', rfl, hbody⟩ |
      ⟨inner', finish', nodes, nodes', sets, length, -, heq, hchoices, hfinish', hlater, rfl⟩
    · obtain ⟨inner', out', rfl, hend, hlen, hlayout⟩ := ih hbody
      obtain ⟨later', rfl, hlater⟩ := Collapses.of_cons_ne hend (by simp [hfinish])
      refine ⟨start :: (inner' ++ [finish]), later', ?_, hlater, ?_, .marked hstart hgroup hlayout hfinish⟩
      · simp
      · simp [hlen]
    · obtain ⟨rfl, rfl, rfl⟩ := hinner.eq_of_choices hfinish hfinish' hchoices.forall_mem heq
      refine ⟨{ start with kind := .collapsedStart (.union sets), length } ::
        (inner.map hollow ++ [{ finish with kind := .collapsedEnd }]), nodes', ?_, hlater, ?_,
        .plain (.leaf rfl (fun _ => hgroup) (layout_hollow _ _ (.leaf rfl nofun .nil)))⟩
      · simp
      · simp

/-! ## Coalescing -/

/-- A node is in the place of another, and is as structural. -/
structure Node.StandsFor (node' node : Node) : Prop where
  group : node'.group = node.group ∧ node'.endsGroup = node.endsGroup
  kind : node'.kind = node.kind ∨ node.kind.isStructural = false ∧ node'.kind.isStructural = false
  bearsState : node'.kind.bearsState = true → node.kind.bearsState = true

theorem Node.StandsFor.refl (node : Node) : node.StandsFor node := ⟨⟨rfl, rfl⟩, .inl rfl, id⟩

theorem Node.StandsFor.kind_eq {node node' : Node} (h : node'.StandsFor node)
    (hstructural : node.kind.isStructural = true) : node'.kind = node.kind := by
  rcases h.kind with hkind | ⟨hleaf, -⟩
  · exact hkind
  · exact absurd (hleaf.symm.trans hstructural) Bool.false_ne_true

theorem Node.exists_mem_of_forall₂ {nodes nodes' : List Node} (h : List.Forall₂ StandsFor nodes' nodes)
    {node' : Node} (hnode' : node' ∈ nodes') : ∃ node ∈ nodes, node'.StandsFor node := by
  induction h with
  | nil => cases hnode'
  | cons hhead _ ih =>
    rcases List.mem_cons.1 hnode' with rfl | htail
    · exact ⟨_, List.mem_cons_self, hhead⟩
    · obtain ⟨node, hnode, hstands⟩ := ih htail
      exact ⟨node, List.mem_cons_of_mem _ hnode, hstands⟩

theorem Coalesce.standsFor_rewrite (inside : Bool) (nodes : List Node) :
    List.Forall₂ Node.StandsFor (rewrite inside nodes) nodes := by
  induction inside, nodes using rewrite_induction with
  | nil => exact .nil
  | keep inside node rest _ ih => exact .cons (.refl node) ih
  | first node rest c hlone ih =>
    have hkind : node.kind = .literal [c] := (lone?_eq_some hlone).1
    refine .cons ⟨⟨rfl, rfl⟩, .inr ⟨by rw [hkind]; rfl, rfl⟩, fun _ => ?_⟩ ih
    rw [hkind]
    rfl
  | later node rest c hlone ih =>
    have hkind : node.kind = .literal [c] := (lone?_eq_some hlone).1
    refine .cons ⟨⟨rfl, rfl⟩, .inr ⟨by rw [hkind]; rfl, rfl⟩, fun hbears => ?_⟩ ih
    cases hbears

/-- What stands for nodes with one among them, around what stands for that
one. -/
theorem Node.exists_standsFor {nodes left right : List Node} {node : Node}
    (h : List.Forall₂ StandsFor nodes (left ++ node :: right)) :
    ∃ left' node' right', nodes = left' ++ node' :: right' ∧ List.Forall₂ StandsFor left' left ∧
      node'.StandsFor node ∧ List.Forall₂ StandsFor right' right := by
  have hleft := List.forall₂_take_append _ _ _ h
  have hright := List.forall₂_drop_append _ _ _ h
  cases hdrop : nodes.drop left.length with
  | nil =>
    rw [hdrop] at hright
    cases hright
  | cons node' right' =>
    rw [hdrop] at hright
    obtain ⟨hnode, hright⟩ := List.forall₂_cons.1 hright
    refine ⟨nodes.take left.length, node', right', ?_, hleft, hnode, hright⟩
    rw [← hdrop, List.take_append_drop]

/-- Bodies lie where the nodes lie that others stand for. -/
theorem Layout.standsFor {part : Part} {g : Option Nat} {index : Nat} {nodes nodes' : List Node}
    (h : Layout part g index nodes) (hnodes : List.Forall₂ Node.StandsFor nodes' nodes) :
    Layout part g index nodes' := by
  induction h generalizing nodes' with
  | nil =>
    cases hnodes
    exact .nil
  | leaf hkind hgroup _ ih =>
    cases hnodes with
    | cons hnode hrest =>
      refine .leaf ?_ (fun hbears => ?_) (ih hrest)
      · rcases hnode.kind with heq | ⟨-, hleaf⟩
        · rw [heq, hkind]
        · exact hleaf
      · rw [hnode.group.1, hnode.group.2]
        exact hgroup (hnode.bearsState hbears)
  | bar hkind _ ih =>
    cases hnodes with
    | cons hnode hrest =>
      refine .bar ?_ (ih hrest)
      rw [hnode.kind_eq (by rw [hkind]; rfl), hkind]
  | @group _ g i opened start finish inner nodes hstart hgroup _ hfinish _ ihInner ihRest =>
    cases hnodes with
    | @cons start' _ _ _ hnode hrest =>
      obtain ⟨inner', finish', rest', rfl, hinner, hend, hrest⟩ := Node.exists_standsFor hrest
      have hstart' : start'.kind = .groupOpen := by rw [hnode.kind_eq (by rw [hstart]; rfl), hstart]
      have hfinish' : finish'.kind = .groupClose opened := by
        rw [hend.kind_eq (by rw [hfinish]; rfl), hfinish]
      have hgroup' : start'.group = g ∧ start'.endsGroup = false := by
        rw [hnode.group.1, hnode.group.2]
        exact hgroup
      have hlayout := ihRest hrest
      rw [← hinner.length_eq] at hlayout
      exact .group hstart' hgroup' (ihInner hinner) hfinish' hlayout
  | plain _ ih => exact .plain (ih hnodes)
  | @marked g i start finish inner hstart hgroup _ hfinish ih =>
    cases hnodes with
    | @cons start' _ _ _ hnode hrest =>
      obtain ⟨inner', finish', rest', rfl, hinner, hend, hrest⟩ := Node.exists_standsFor hrest
      cases hrest
      have hstart' : start'.kind = .alternationStart := by
        rw [hnode.kind_eq (by rw [hstart]; rfl), hstart]
      have hfinish' : finish'.kind = .alternationEnd := by
        rw [hend.kind_eq (by rw [hfinish]; rfl), hfinish]
      have hgroup' : start'.group = g ∧ start'.endsGroup = false := by
        rw [hnode.group.1, hnode.group.2]
        exact hgroup
      exact .marked hstart' hgroup' (ih hinner) hfinish'

/-! ## The nodes of a pattern -/

/-- A list of nodes is a body, and then nodes that bear nothing. -/
def Node.LaidOut (nodes : List Node) : Prop :=
  ∃ body after, nodes = body ++ after ∧ Layout .body none 0 body ∧
    ∀ node ∈ after, node.kind.isStructural = false ∧ node.kind.bearsState = false

namespace Node

theorem laidOut_of_phrase (p : Phrase) (stop : Nat) :
    LaidOut (NodeList.ofItems (p.body 0 stop) stop).nodes := by
  obtain ⟨nodes, hlayout, hnodes⟩ := Phrase.lieAs_mark 0 stop (p.lieAs_items [])
  have hitems := hnodes []
  rw [List.append_nil] at hitems
  refine ⟨nodes, [.bare .sentinel stop 0 none, .bare .sentinel stop 0 none], ?_, hlayout, ?_⟩
  · show ofItems 0 [] (p.body 0 stop) ++ _ = _
    rw [Phrase.body, hitems, ofItems, List.append_nil]
  · intro node hnode
    rcases List.mem_cons.1 hnode with rfl | hnode
    · exact ⟨rfl, rfl⟩
    · obtain rfl := List.mem_singleton.1 hnode
      exact ⟨rfl, rfl⟩

theorem LaidOut.collapse {nodes : List Node} (h : LaidOut nodes) :
    LaidOut (RegexAutomaton.collapse nodes) := by
  obtain ⟨body, after, rfl, hlayout, hafter⟩ := h
  obtain ⟨body', after', hout, hc, -, hlayout'⟩ := hlayout.collapses (Collapse.collapses_rewrite _)
  refine ⟨body', after', hout, hlayout', ?_⟩
  clear hlayout hlayout' hout
  induction after generalizing after' with
  | nil =>
    cases hc
    exact nofun
  | cons node after ih =>
    obtain ⟨hnode, hrest⟩ := List.forall_mem_cons.1 hafter
    obtain ⟨after', rfl, hlater⟩ := hc.of_cons_ne fun hstart => by
      rw [hstart] at hnode
      cases hnode.1
    exact List.forall_mem_cons.2 ⟨hnode, ih hrest after' hlater⟩

theorem LaidOut.coalesce {nodes : List Node} (h : LaidOut nodes) :
    LaidOut (RegexAutomaton.coalesce nodes) := by
  obtain ⟨body, after, rfl, hlayout, hafter⟩ := h
  have hstands := Coalesce.standsFor_rewrite false (body ++ after)
  refine ⟨(RegexAutomaton.coalesce (body ++ after)).take body.length,
    (RegexAutomaton.coalesce (body ++ after)).drop body.length, (List.take_append_drop ..).symm,
    hlayout.standsFor (List.forall₂_take_append _ _ _ hstands), ?_⟩
  intro node' hnode'
  obtain ⟨node, hnode, hstandsFor⟩ :=
    exists_mem_of_forall₂ (List.forall₂_drop_append _ _ _ hstands) hnode'
  obtain ⟨hleaf, hbears⟩ := hafter node hnode
  constructor
  · rcases hstandsFor.kind with heq | ⟨-, hleaf'⟩
    · rw [heq, hleaf]
    · exact hleaf'
  · by_contra hbears'
    exact absurd (hbears.symm.trans (hstandsFor.bearsState (by simpa using hbears'))) Bool.false_ne_true

theorem LaidOut.of_options {nodes : List Node} (h : LaidOut nodes) (options : Options) :
    ∃ unlinked, Pass.runAll options.passes nodes = linkNodes unlinked ∧ LaidOut unlinked := by
  unfold Options.passes
  rw [Pass.runAll_append, Pass.runAll_append]
  refine ⟨_, rfl, ?_⟩
  have hcollapse : LaidOut (Pass.runAll (if options.collapses then [.collapse] else []) nodes) := by
    split
    · exact h.collapse
    · exact h
  split
  · exact hcollapse.coalesce
  · exact hcollapse

end Node

end RegexAutomaton
