/-
Patterns as trees, without places.

An `Outline` keeps of a body what its nodes stand for, from some node on; a
group in it holds a whole body. `nodes` lists the nodes again. The nodes of a
phrase, without their places in the pattern, are those of its outline
(`placeless_ofItems`), and in an outline that comes from a pattern whatever
needs a node before or after it has one (`Sound`).
-/
import RegexAutomaton.Proofs.Layout
import RegexAutomaton.Proofs.Rewriting

namespace RegexAutomaton

theorem NodeKind.isStructural_inert : inert.isStructural = false := rfl

/-- A body of a pattern, from some node on. -/
inductive Outline where
  | nil
  | leaf (kind : NodeKind) (isLeaf : kind.isStructural = false) (rest : Outline)
  | bar (rest : Outline)
  /-- A group with the body in it. -/
  | group (inner rest : Outline)

namespace Outline

/-- Whether a bar stands directly in the body. -/
def barred : Outline → Bool
  | nil => false
  | leaf _ _ rest => rest.barred
  | bar _ => true
  | group _ rest => rest.barred

/-- How many nodes an alternation adds to the body at either end. -/
def margin (o : Outline) : Nat := if o.barred then 1 else 0

/-- The number of nodes. -/
def length : Outline → Nat
  | nil => 0
  | leaf _ _ rest => rest.length + 1
  | bar rest => rest.length + 1
  | group inner rest => inner.length + 2 * inner.margin + 2 + rest.length

/-- The number of nodes of a whole body. -/
def span (o : Outline) : Nat := o.length + 2 * o.margin

/-- Put the ends of an alternation around the nodes of a body, if it has a
bar. -/
def wrap (barred : Bool) (g : Option Nat) (nodes : List Node) : List Node :=
  if barred then .bare .alternationStart 0 0 g :: (nodes ++ [.bare .alternationEnd 0 0 g]) else nodes

/-- The nodes, inside the group that the node `g` opens. The first of them has
the index `i`. -/
def nodes : Outline → (g : Option Nat) → (i : Nat) → List Node
  | nil, _, _ => []
  | leaf kind _ rest, g, i => .bare kind 0 0 g :: rest.nodes g (i + 1)
  | bar rest, g, i => .bare .bar 0 0 g :: rest.nodes g (i + 1)
  | group inner rest, g, i =>
    .bare .groupOpen 0 0 g ::
      (wrap inner.barred (some i) (inner.nodes (some i) (i + 1 + inner.margin)) ++
        .bare (.groupClose i) 0 0 g :: rest.nodes g (i + 1 + inner.span + 1))

/-- The nodes of a whole body. -/
def body (o : Outline) (g : Option Nat) (i : Nat) : List Node :=
  wrap o.barred g (o.nodes g (i + o.margin))

theorem nodes_group (inner rest : Outline) (g : Option Nat) (i : Nat) :
    (group inner rest).nodes g i = .bare .groupOpen 0 0 g :: (inner.body (some i) (i + 1) ++
      .bare (.groupClose i) 0 0 g :: rest.nodes g (i + 1 + inner.span + 1)) := rfl

theorem length_group (inner rest : Outline) :
    (group inner rest).length = inner.span + 2 + rest.length := rfl

theorem length_wrap (o : Outline) (g : Option Nat) {nodes : List Node} (h : nodes.length = o.length) :
    (wrap o.barred g nodes).length = o.span := by
  unfold wrap span margin
  split <;> simp [h]

@[simp] theorem length_nodes (o : Outline) (g : Option Nat) (i : Nat) : (o.nodes g i).length = o.length := by
  induction o generalizing g i with
  | nil => rfl
  | leaf kind _ rest ih => simp [nodes, length, ih]
  | bar rest ih => simp [nodes, length, ih]
  | group inner rest ihInner ihRest =>
    simp only [nodes, List.length_cons, List.length_append, length_wrap inner _ (ihInner _ _), ihRest,
      length_group]
    omega

@[simp] theorem length_body (o : Outline) (g : Option Nat) (i : Nat) : (o.body g i).length = o.span :=
  length_wrap o g (o.length_nodes g _)

/-! ## What stands first -/

/-- Whether the first node bears a state. -/
def leads : Outline → Bool
  | leaf kind _ _ => kind.bearsState
  | group _ _ => true
  | _ => false

/-- The repetition that the first node asks for, if it is a quantifier. -/
def quantifier? : Outline → Option Repetition
  | leaf kind _ _ => kind.repetition?
  | _ => none

theorem quantifier?_of_leads {o : Outline} (h : o.leads = true) : o.quantifier? = none := by
  cases o with
  | leaf kind hleaf rest => cases kind <;> first | rfl | cases h
  | _ => rfl

/-- What needs a node before or after it has one: a quantifier repeats what is
right before it, and a bar and the start of a group are followed by a node that
bears a state. -/
def Sound : Outline → Prop
  | nil => True
  | leaf kind _ rest => (rest.quantifier?.isSome = true → kind.isRepeatable = true) ∧ rest.Sound
  | bar rest => rest.leads = true ∧ rest.Sound
  | group inner rest => inner.leads = true ∧ inner.Sound ∧ rest.Sound

end Outline

/-- The node without its place in the pattern. -/
def Node.placeless (node : Node) : Node := { node with offset := 0, length := 0 }

@[simp] theorem Node.kind_placeless (node : Node) : node.placeless.kind = node.kind := rfl

/-! ## The outline of a phrase -/

namespace Phrase

/-- What the tokens of a phrase stand for. -/
def outline : Phrase → Outline
  | nil => .nil
  | leaf t isLeaf rest =>
    if hbar : t.value = .bar then .bar rest.outline
    else
      .leaf (.ofItem [] (.token t.value)) (NodeKind.isStructural_of_isLeaf isLeaf hbar []) rest.outline
  | group _ inner _ rest => .group inner.outline rest.outline

theorem outline_leaf {t : Spanned Token} {hleaf : t.value.IsLeaf} (hbar : t.value ≠ .bar) (rest : Phrase) :
    (leaf t hleaf rest).outline =
      .leaf (.ofItem [] (.token t.value)) (NodeKind.isStructural_of_isLeaf hleaf hbar []) rest.outline := by
  rw [outline, dif_neg hbar]

theorem outline_bar {t : Spanned Token} {hleaf : t.value.IsLeaf} (hbar : t.value = .bar) (rest : Phrase) :
    (leaf t hleaf rest).outline = .bar rest.outline := by
  rw [outline, dif_pos hbar]

@[simp] theorem barred_outline (p : Phrase) : p.outline.barred = p.barred := by
  induction p with
  | nil => rfl
  | leaf t hleaf rest ih =>
    by_cases hbar : t.value = .bar <;> simp [outline, barred, Outline.barred, hbar, ih]
  | group o inner z rest _ ihRest => exact ihRest

/-- Only the end of a group tells in which groups it lies. -/
theorem ofItem_of_isLeaf {t : Token} (h : t.IsLeaf) (groups : List Nat) :
    NodeKind.ofItem groups (.token t) = .ofItem [] (.token t) := by
  cases t with
  | groupClose => exact absurd rfl h.2
  | atom a => cases a <;> rfl
  | _ => rfl

theorem placeless_mark {p : Phrase} {groups : List Nat} {i : Nat} (first last : Nat)
    (later : List (Spanned Item))
    (h : ∀ i later, (Node.ofItems i groups (p.items ++ later)).map Node.placeless =
      p.outline.nodes groups.head? i ++
        (Node.ofItems (i + p.outline.length) groups later).map Node.placeless) :
    (Node.ofItems i groups (mark p.barred first last p.items ++ later)).map Node.placeless =
      p.outline.body groups.head? i ++
        (Node.ofItems (i + p.outline.span) groups later).map Node.placeless := by
  unfold mark Outline.body Outline.wrap Outline.span Outline.margin
  rw [barred_outline]
  split
  · have hplace : i + (p.outline.length + 2 * 1) = i + 1 + p.outline.length + 1 := by omega
    rw [List.cons_append, List.append_assoc, Node.ofItems, List.map_cons, hplace]
    show _ :: (Node.ofItems (i + 1) groups _).map Node.placeless = _
    rw [h, List.singleton_append, Node.ofItems, List.map_cons, List.cons_append, List.append_assoc]
    rfl
  · exact h i later

/-- **The nodes of a phrase are those of its outline**, but for their places. -/
theorem placeless_ofItems (p : Phrase) (groups : List Nat) (i : Nat) (later : List (Spanned Item)) :
    (Node.ofItems i groups (p.items ++ later)).map Node.placeless =
      p.outline.nodes groups.head? i ++
        (Node.ofItems (i + p.outline.length) groups later).map Node.placeless := by
  induction p generalizing groups i later with
  | nil => rfl
  | leaf t hleaf rest ih =>
    obtain ⟨haround, hafter⟩ := Node.groups_of_isLeaf hleaf i groups
    have hnode : (Node.ofItem groups (t.map .token)).placeless =
        .bare (.ofItem groups (.token t.value)) 0 0 groups.head? := by
      show Node.bare _ _ _ (Node.groupsAround groups (.token t.value)).head? = _
      rw [haround]
      rfl
    have hlist : (Node.ofItems i groups ((leaf t hleaf rest).items ++ later)).map Node.placeless =
        .bare (.ofItem groups (.token t.value)) 0 0 groups.head? ::
          (rest.outline.nodes groups.head? (i + 1) ++
            (Node.ofItems (i + 1 + rest.outline.length) groups later).map Node.placeless) := by
      rw [items, List.cons_append, Node.ofItems, List.map_cons, hnode]
      show _ :: (Node.ofItems (i + 1) (Node.groupsAfter i groups (.token t.value)) _).map _ = _
      rw [hafter, ih]
    rw [hlist, ofItem_of_isLeaf hleaf, Nat.add_assoc, Nat.add_comm 1]
    by_cases hbar : t.value = .bar
    · simp [outline, hbar, Outline.nodes, Outline.length, NodeKind.ofItem]
    · simp [outline, hbar, Outline.nodes, Outline.length]
  | group o inner z rest ihInner ihRest =>
    have hplace : i + (group o inner z rest).outline.length =
        i + 1 + inner.outline.span + 1 + rest.outline.length := by
      rw [outline, Outline.length_group]
      omega
    rw [items, List.cons_append, List.append_assoc, Node.ofItems, List.map_cons, hplace]
    show _ :: (Node.ofItems (i + 1) (i :: groups) _).map Node.placeless = _
    rw [placeless_mark (o + 1) z _ (ihInner (i :: groups)), List.cons_append, Node.ofItems, List.map_cons]
    show _ :: (_ ++ _ :: (Node.ofItems (i + 1 + inner.outline.span + 1) groups _).map Node.placeless) = _
    rw [ihRest, outline, Outline.nodes_group, List.cons_append, List.append_assoc, List.cons_append]
    rfl

/-! ## Outlines of patterns -/

variable {p : Phrase} {before after : Role} {later : List Role}

/-- A group, and a branch after a bar, start with what bears a state. -/
theorem leads_outline (h : List.IsChain Role.Admits (before :: (p.roles ++ after :: later)))
    (hbefore : before = .bar ∨ before = .groupOpen) (hends : ¬ before.Admits after) :
    p.outline.leads = true := by
  cases p with
  | nil => exact absurd (List.isChain_cons_cons.1 h).1 hends
  | leaf t hleaf rest =>
    obtain ⟨value, offset, width⟩ := t
    have hadmits : before.Admits value.role := (List.isChain_cons_cons.1 h).1
    cases value with
    | atom a => cases a <;> rfl
    | anchorStart | anchorEnd => rfl
    | quantifier | bar => rcases hbefore with rfl | rfl <;> cases hadmits
    | groupOpen => exact absurd rfl hleaf.1
    | groupClose => exact absurd rfl hleaf.2
  | group => rfl

theorem role_of_quantifier? (h : p.outline.quantifier?.isSome = true) : p.roles.head? = some .quantifier := by
  cases p with
  | nil => cases h
  | group => cases h
  | leaf t hleaf rest =>
    by_cases hbar : t.value = .bar
    · simp [outline, hbar, Outline.quantifier?] at h
    · simp only [outline, hbar, dite_false, Outline.quantifier?] at h
      exact congrArg some (NodeKind.role_of_repetition? h)

/-- **In a pattern that is read everything has the neighbours it needs.** -/
theorem sound_outline (h : List.IsChain Role.Admits (before :: (p.roles ++ after :: later)))
    (hafter : after = .groupClose ∨ after = .finish) : p.outline.Sound := by
  induction p generalizing before after later with
  | nil => trivial
  | leaf t hleaf rest ih =>
    rw [roles_leaf, List.cons_append, List.isChain_cons_cons] at h
    obtain ⟨-, hrest⟩ := h
    by_cases hbar : t.value = .bar
    · have hends : ¬ Role.bar.Admits after := by rcases hafter with rfl | rfl <;> decide
      rw [hbar] at hrest
      simp only [outline, hbar, dite_true]
      exact ⟨leads_outline hrest (.inl rfl) hends, ih hrest hafter⟩
    · simp only [outline, hbar, dite_false]
      refine ⟨fun hquantifier => ?_, ih hrest hafter⟩
      have hadmits : t.value.role.Admits .quantifier := by
        refine (List.isChain_cons.1 hrest).1 _ ?_
        rw [List.head?_append, role_of_quantifier? hquantifier]
        rfl
      refine NodeKind.isRepeatable_ofItem ?_
      generalize t.value = value at hadmits
      cases value with
      | atom a => exact .inl rfl
      | groupClose => exact .inr rfl
      | _ => cases hadmits
  | group o inner z rest ihInner ihRest =>
    rw [roles_group, List.cons_append, List.append_assoc, List.isChain_cons_cons] at h
    obtain ⟨hinner, hrest⟩ : List.IsChain Role.Admits (.groupOpen :: (inner.roles ++ [.groupClose])) ∧
        List.IsChain Role.Admits (.groupClose :: (rest.roles ++ after :: later)) :=
      (@List.isChain_split _ _ .groupClose (.groupOpen :: inner.roles) _).1 h.2
    exact ⟨leads_outline hinner (.inr rfl) (by decide), ihInner hinner (.inl rfl), ihRest hrest hafter⟩

end Phrase

end RegexAutomaton
