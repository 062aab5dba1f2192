/-
Linking, on outlines.

In an outline the node to go on with is found by looking to the right, no
further than the end of the branch (`entryAt`). `linked` lists the nodes with
the links that this gives them, and they are the ones that the walk from right
to left gives (`passAll_nodes`).
-/
import RegexAutomaton.Proofs.Linking
import RegexAutomaton.Proofs.OutlinePasses

namespace RegexAutomaton

namespace Outlook

/-- The outlook with another node to go on with, from which the next node on
the left is the last of its branch or not. -/
def move (o : Outlook) (follow : Option Nat) (tail : Bool) : Outlook :=
  { o with follow := follow }.setTail tail

/-- Right of the outlook a branch inside the group `g` ends, after which
matching goes on with the node `f`. -/
structure EndsBranch (o : Outlook) (f g : Option Nat) : Prop where
  follow : o.follow = f
  tail : o.isTail = g.isSome
  top : g = none → o.groups = []

variable {o : Outlook} {f g : Option Nat}

@[simp] theorem move_move (o : Outlook) (follow follow' : Option Nat) (tail tail' : Bool) :
    (o.move follow tail).move follow' tail' = o.move follow' tail' := by
  obtain ⟨f, groups, alternations⟩ := o
  cases groups <;> rfl

@[simp] theorem alternations_move (o : Outlook) (follow : Option Nat) (tail : Bool) :
    (o.move follow tail).alternations = o.alternations := alternations_setTail ..

@[simp] theorem follow_move (o : Outlook) (follow : Option Nat) (tail : Bool) :
    (o.move follow tail).follow = follow := follow_setTail ..

namespace EndsBranch

theorem move_eq (h : o.EndsBranch f g) : o.move f true = o := by
  obtain ⟨rfl, htail, htop⟩ := h
  obtain ⟨f, groups, alternations⟩ := o
  cases groups with
  | nil => rfl
  | cons group outer =>
    cases g with
    | none => cases htop rfl
    | some g =>
      obtain ⟨close, tail⟩ := group
      obtain rfl : tail = true := htail
      rfl

theorem isTail_move (h : o.EndsBranch f g) (follow : Option Nat) (tail : Bool) :
    (o.move follow tail).isTail = (g.isSome && tail) := by
  obtain ⟨rfl, htail, htop⟩ := h
  obtain ⟨f, groups, alternations⟩ := o
  cases groups with
  | nil =>
    rw [← htail]
    rfl
  | cons group outer =>
    cases g with
    | none => cases htop rfl
    | some g => rfl

/-- A node that bears a state takes over what is known on its right. -/
theorem visit_move (h : o.EndsBranch f g) (follow : Option Nat) (tail : Bool) (index : Nat) {node : Node}
    (hends : node.endsGroup = false) :
    (o.move follow tail).visit index node =
      ({ node with next := follow, endsGroup := g.isSome && tail }, o.move (some index) false) := by
  rw [visit, follow_move, h.isTail_move, hends, Bool.false_or]
  exact congrArg _ (o.move_move follow (some index) tail false)

end EndsBranch

end Outlook

namespace Outline

/-- Whether the branch that comes first has a node that bears a state. -/
def opens : Outline → Bool
  | leaf kind _ rest => kind.bearsState || rest.opens
  | group _ _ => true
  | _ => false

/-- The first node of the branch that bears a state, or else `f`, which comes
after the branch. -/
def entryAt : Outline → (f : Option Nat) → (i : Nat) → Option Nat
  | leaf kind _ rest, f, i => if kind.bearsState then some i else rest.entryAt f (i + 1)
  | group _ _, _, i => some i
  | _, f, _ => f

/-- A node with links. -/
def linkedNode (kind : NodeKind) (next close g : Option Nat) (last : Bool) : Node :=
  { Node.bare kind 0 0 g with next, close, endsGroup := g.isSome && last }

/-- The nodes with their links, inside the group `g`. After each branch
matching goes on with `f`. -/
def linked : Outline → (f g : Option Nat) → (i : Nat) → List Node
  | nil, _, _, _ => []
  | leaf kind _ rest, f, g, i =>
    (if kind.bearsState then linkedNode kind (rest.entryAt f (i + 1)) none g (!rest.opens)
      else .bare kind 0 0 g) :: rest.linked f g (i + 1)
  | bar rest, f, g, i => .bare .bar 0 0 g :: rest.linked f g (i + 1)
  | group inner rest, f, g, i =>
    let after := rest.entryAt f (i + 1 + inner.span + 1)
    linkedNode .groupOpen (inner.entryAt after (i + 1 + inner.margin)) after g (!rest.opens) ::
      (wrap inner.barred (some i) (inner.linked after (some i) (i + 1 + inner.margin)) ++
        .bare (.groupClose i) 0 0 g :: rest.linked f g (i + 1 + inner.span + 1))

/-- The nodes of a whole body, with their links. -/
def linkedBody (o : Outline) (f g : Option Nat) (i : Nat) : List Node :=
  wrap o.barred g (o.linked f g (i + o.margin))

theorem linked_group (inner rest : Outline) (f g : Option Nat) (i : Nat) :
    (group inner rest).linked f g i =
      linkedNode .groupOpen
          (inner.entryAt (rest.entryAt f (i + 1 + inner.span + 1)) (i + 1 + inner.margin))
          (rest.entryAt f (i + 1 + inner.span + 1)) g (!rest.opens) ::
        (inner.linkedBody (rest.entryAt f (i + 1 + inner.span + 1)) (some i) (i + 1) ++
          .bare (.groupClose i) 0 0 g :: rest.linked f g (i + 1 + inner.span + 1)) := rfl

@[simp] theorem length_linked (o : Outline) (f g : Option Nat) (i : Nat) :
    (o.linked f g i).length = o.length := by
  induction o generalizing f g i with
  | nil => rfl
  | leaf kind _ rest ih => simp [linked, length, ih]
  | bar rest ih => simp [linked, length, ih]
  | group inner rest ihInner ihRest =>
    simp only [linked, List.length_cons, List.length_append, length_wrap inner _ (ihInner _ _ _), ihRest,
      length_group]
    omega

@[simp] theorem length_linkedBody (o : Outline) (f g : Option Nat) (i : Nat) :
    (o.linkedBody f g i).length = o.span := length_wrap o g (o.length_linked f g _)

variable {ω : Outlook} {f g : Option Nat}

/-- The start of a group, with the outlook on the left of its body. -/
theorem pass_groupOpen (h : ω.EndsBranch f g) (after entry : Option Nat) (tail tail' : Bool) (i : Nat) :
    ((ω.move after tail).insideGroup.move entry tail').pass i (.bare .groupOpen 0 0 g) =
      (linkedNode .groupOpen entry after g tail, ω.move (some i) false) := by
  have hpass : ((ω.move after tail).insideGroup.move entry tail').pass i (.bare .groupOpen 0 0 g) =
      (ω.move entry tail).visit i { Node.bare .groupOpen 0 0 g with close := after } := by
    obtain ⟨follow, groups, alternations⟩ := ω
    cases groups <;> rfl
  rw [hpass]
  exact h.visit_move entry tail i rfl

theorem passAll_body_of {o : Outline}
    (h : ∀ (ω : Outlook) i, ω.EndsBranch f g → (o.barred = true → ω.alternations.headD none = f) →
      ω.passAll i (o.nodes g i) = (o.linked f g i, ω.move (o.entryAt f i) !o.opens))
    (hω : ω.EndsBranch f g) (i : Nat) :
    ω.passAll i (o.body g i) = (o.linkedBody f g i, ω.move (o.entryAt f (i + o.margin)) !o.opens) := by
  by_cases hbarred : o.barred = true
  · have hinside : ω.insideAlternation.EndsBranch f g := ⟨hω.follow, hω.tail, hω.top⟩
    have hinner := h ω.insideAlternation (i + 1) hinside fun _ => hω.follow
    have hbody : o.body g i = .bare .alternationStart 0 0 g ::
        (o.nodes g (i + 1) ++ [.bare .alternationEnd 0 0 g]) := by simp [body, wrap, margin, hbarred]
    have hlinked : o.linkedBody f g i = .bare .alternationStart 0 0 g ::
        (o.linked f g (i + 1) ++ [.bare .alternationEnd 0 0 g]) := by simp [linkedBody, wrap, margin, hbarred]
    have hmargin : o.margin = 1 := by simp [margin, hbarred]
    rw [hbody, Outlook.passAll_marked ω i rfl rfl, hinner, hlinked, hmargin]
    obtain ⟨follow, groups, alternations⟩ := ω
    cases groups <;> rfl
  · have hbody : o.body g i = o.nodes g i := by simp [body, wrap, margin, hbarred]
    have hlinked : o.linkedBody f g i = o.linked f g i := by simp [linkedBody, wrap, margin, hbarred]
    have hmargin : o.margin = 0 := by simp [margin, hbarred]
    rw [hbody, hlinked, hmargin, h ω i hω fun hbarred' => absurd hbarred' hbarred]
    rfl

/-- **The walk gives every node the links that the outline gives it**, and
leaves the outlook of the branch that comes first. -/
theorem passAll_nodes (o : Outline) (hω : ω.EndsBranch f g) (i : Nat)
    (hbar : o.barred = true → ω.alternations.headD none = f) :
    ω.passAll i (o.nodes g i) = (o.linked f g i, ω.move (o.entryAt f i) !o.opens) := by
  induction o generalizing ω f g i with
  | nil => exact congrArg _ hω.move_eq.symm
  | leaf kind hleaf rest ih =>
    rw [nodes, Outlook.passAll_cons, ih hω (i + 1) hbar]
    simp only [@Outlook.pass_leaf _ i (.bare kind 0 0 g) hleaf]
    by_cases hbears : kind.bearsState = true
    · simp [hω.visit_move, linked, opens, entryAt, hbears, Node.bare, linkedNode]
    · simp [linked, opens, entryAt, hbears, Node.bare]
  | bar rest ih =>
    have hhead := hbar rfl
    have hpass (o : Outlook) (node : Node) (h : node.kind = .bar) :
        o.pass i node = (node, o.move (o.alternations.headD none) true) := by
      rw [Outlook.pass, h]
      rfl
    rw [nodes, Outlook.passAll_cons, ih hω (i + 1) fun _ => hhead]
    simp only [hpass _ (.bare .bar 0 0 g) rfl, Outlook.alternations_move, Outlook.move_move, hhead]
    rfl
  | group inner rest ihInner ihRest =>
    have hrest := ihRest hω (i + 1 + inner.span + 1) hbar
    obtain ⟨after, hafter⟩ : ∃ after, after = rest.entryAt f (i + 1 + inner.span + 1) := ⟨_, rfl⟩
    rw [← hafter] at hrest
    -- Right of the group lies what the outline says, so inside it each branch goes on there.
    have hinside : (ω.move after !rest.opens).insideGroup.EndsBranch after (some i) :=
      ⟨Outlook.follow_move .., rfl, fun h => by cases h⟩
    have hinner := passAll_body_of (fun ω i hω hbar => ihInner hω i hbar) hinside (i + 1)
    rw [nodes_group, Outlook.passAll_group ω i rfl, length_body, hrest]
    simp only [hinner, pass_groupOpen hω, linked_group, ← hafter]
    rfl

theorem linkNodes_list (o : Outline) : linkNodes o.list = o.linkedBody none none 0 ++ sentinels := by
  have hempty : Outlook.empty.EndsBranch none none := ⟨rfl, rfl, fun _ => rfl⟩
  have hbody := passAll_body_of (o := o) (fun ω i hω hbar => passAll_nodes o hω i hbar) hempty 0
  have hidle : ∀ node ∈ sentinels, node.kind.isStructural = false ∧ node.kind.bearsState = false := by
    simp [sentinels, Node.bare, NodeKind.isStructural, NodeKind.bearsState]
  rw [linkNodes, list, Outlook.passAll_append]
  simp only [Outlook.passAll_idle _ _ hidle, hbody]

end Outline

end RegexAutomaton
