/-
Where the nodes of a group go on.

Linking walks a body from right to left. Wherever it stands in a group, either
nothing of the branch is on its right, and then it says to go on after the
group; or it says to go on with a node of the same group (`Within`). Each node
takes over what the walk says (`GoesOn`), and every body leaves the walk as it
found it for the body around it (`Layout.links`).
-/
import RegexAutomaton.Proofs.Layout
import RegexAutomaton.Proofs.Rewriting

namespace RegexAutomaton

/-- The node to go on with after a node and, if it opens a group, after the
group. -/
def Node.continuation (node : Node) : Option Nat :=
  if node.kind = .groupOpen then node.close else node.next

section

-- Which nodes bear a state inside a group, or outside all groups.
variable (inside : Option Nat → Nat → Prop)

/-- A node of a group goes on after the group exactly if it ends the group,
and otherwise with a node of the group. -/
inductive Node.GoesOn (g : Nat) (close : Option Nat) (stop : Nat) (node : Node) : Prop
  | out (hends : node.endsGroup = true) (h : node.continuation = close)
  | on (hends : node.endsGroup = false) (t : Nat) (h : node.continuation = some t)
      (hinside : inside (some g) t) (hlt : t < stop)

/-- What the walk knows inside a group, or outside all groups. The group ends
at the index `stop`. -/
inductive Outlook.Within :
    (g close : Option Nat) → (stop : Nat) → (outer : List (Option Nat × Bool)) → Outlook → Prop
  | top {close : Option Nat} {stop : Nat} {o : Outlook} (hgroups : o.groups = []) :
      Within none close stop [] o
  | tail {g stop : Nat} {close : Option Nat} {outer : List (Option Nat × Bool)} {o : Outlook}
      (hgroups : o.groups = (close, true) :: outer) (hfollow : o.follow = close) :
      Within (some g) close stop outer o
  | on {g stop : Nat} {close : Option Nat} {outer : List (Option Nat × Bool)} {o : Outlook}
      (hgroups : o.groups = (close, false) :: outer) (t : Nat) (hfollow : o.follow = some t)
      (hinside : inside (some g) t) (hlt : t < stop) : Within (some g) close stop outer o

/-- Nodes, with their indices, that all go on as they should. Those of the
group `g` are told where it ends; the others find the start of their group
among the nodes. -/
def Node.Linked (g close : Option Nat) (stop : Nat) (nodes : List (Node × Nat)) : Prop :=
  ∀ x ∈ nodes, x.1.kind.bearsState = true → ∀ g', x.1.group = some g' →
    (g = some g' ∧ x.1.GoesOn inside g' close stop) ∨
      ∃ y ∈ nodes, y.2 = g' ∧ y.1.kind = .groupOpen ∧ ∃ stop', (∀ c, y.1.close = some c → stop' ≤ c) ∧
        x.1.GoesOn inside g' y.1.close stop'

end

variable {inside : Option Nat → Nat → Prop} {g close : Option Nat} {stop index : Nat}
  {outer : List (Option Nat × Bool)} {o o' : Outlook}

/-! ## The walk -/

namespace Outlook

@[simp] theorem alternations_setTail (o : Outlook) (tail : Bool) :
    (o.setTail tail).alternations = o.alternations := by
  unfold setTail
  split <;> rfl

@[simp] theorem follow_setTail (o : Outlook) (tail : Bool) : (o.setTail tail).follow = o.follow := by
  unfold setTail
  split <;> rfl

namespace Within

theorem congr (h : Within inside g close stop outer o) (hgroups : o'.groups = o.groups)
    (hfollow : o'.follow = o.follow) : Within inside g close stop outer o' := by
  cases h with
  | top h => exact .top (hgroups.trans h)
  | tail h hclose => exact .tail (hgroups.trans h) (hfollow.trans hclose)
  | on h t ht hinside hlt => exact .on (hgroups.trans h) t (hfollow.trans ht) hinside hlt

/-- A node of the group that bears a state is the one to go on with. -/
theorem advance (h : Within inside g close stop outer o) (hgroups : o'.groups = o.groups)
    (hfollow : o'.follow = some index) (hinside : inside g index) (hlt : index < stop) :
    Within inside g close stop outer (o'.setTail false) := by
  cases h with
  | top h =>
    refine .top ?_
    rw [setTail, hgroups, h]
    exact hgroups.trans h
  | tail h _ | on h _ _ _ _ =>
    refine .on ?_ index ((follow_setTail o' false).trans hfollow) hinside hlt
    rw [setTail, hgroups, h]

/-- A bar ends the branch on its left. -/
theorem bar (h : Within inside g close stop outer o) (hgroups : o'.groups = o.groups)
    (hfollow : o'.follow = close) : Within inside g close stop outer (o'.setTail true) := by
  cases h with
  | top h =>
    refine .top ?_
    rw [setTail, hgroups, h]
    exact hgroups.trans h
  | tail h _ | on h _ _ _ _ =>
    refine .tail ?_ ((follow_setTail o' true).trans hfollow)
    rw [setTail, hgroups, h]

theorem groups_eq {g : Nat} (h : Within inside (some g) close stop outer o) :
    ∃ tail, o.groups = (close, tail) :: outer := by
  cases h with
  | tail h _ => exact ⟨true, h⟩
  | on h _ _ _ _ => exact ⟨false, h⟩

/-- A node that takes over what the walk says goes on as it should. -/
theorem goesOn {g : Nat} (h : Within inside (some g) close stop outer o) {node : Node}
    (hends : node.endsGroup = o.isTail) (hcontinuation : node.continuation = o.follow) :
    node.GoesOn inside g close stop := by
  cases h with
  | tail h hclose =>
    refine .out ?_ (hcontinuation.trans hclose)
    rw [hends, isTail, h]
  | on h t ht hinside hlt =>
    refine .on ?_ t (hcontinuation.trans ht) hinside hlt
    rw [hends, isTail, h]

end Within

theorem pass_leaf (o : Outlook) (index : Nat) {node : Node} (h : node.kind.isStructural = false) :
    o.pass index node = if node.kind.bearsState then o.visit index node else (node, o) := by
  obtain ⟨kind, offset, length, next, close, group, endsGroup⟩ := node
  cases kind <;> first | rfl | cases h

/-- The outlook inside a group, from the one after it. -/
def insideGroup (o : Outlook) : Outlook := { o with groups := (o.follow, true) :: o.groups }

/-- The outlook inside an alternation, from the one after it. -/
def insideAlternation (o : Outlook) : Outlook := { o with alternations := o.follow :: o.alternations }

/-- A group is linked after what comes after it, and its start last. -/
theorem passAll_group (o : Outlook) (index : Nat) {start finish : Node} {inner nodes : List Node}
    {opened : Nat} (hfinish : finish.kind = .groupClose opened) :
    o.passAll index (start :: (inner ++ finish :: nodes)) =
      let later := o.passAll (index + 1 + inner.length + 1) nodes
      let body := later.2.insideGroup.passAll (index + 1) inner
      ((body.2.pass index start).1 :: (body.1 ++ finish :: later.1), (body.2.pass index start).2) := by
  have hend (o : Outlook) (place : Nat) : o.pass place finish = (finish, o.insideGroup) := by
    rw [pass, hfinish, insideGroup]
  simp only [passAll_cons, passAll_append, hend]

theorem passAll_marked (o : Outlook) (index : Nat) {start finish : Node} {inner : List Node}
    (hstart : start.kind = .alternationStart) (hfinish : finish.kind = .alternationEnd) :
    o.passAll index (start :: (inner ++ [finish])) =
      let body := o.insideAlternation.passAll (index + 1) inner
      (start :: (body.1 ++ [finish]), { body.2 with alternations := body.2.alternations.tail }) := by
  have hend : o.pass (index + 1 + inner.length) finish = (finish, o.insideAlternation) := by
    rw [pass, hfinish, insideAlternation]
  have hbegin (o : Outlook) :
      o.pass index start = (start, { o with alternations := o.alternations.tail }) := by
    rw [pass, hstart]
  simp only [passAll_cons, passAll_append, passAll_nil, hend, hbegin]

end Outlook

/-! ## Lists of linked nodes -/

namespace Node.Linked

variable {nodes nodes' : List (Node × Nat)} {x : Node × Nat}

theorem nil : Node.Linked inside g close stop [] := nofun

theorem append (h : Node.Linked inside g close stop nodes) (h' : Node.Linked inside g close stop nodes') :
    Node.Linked inside g close stop (nodes ++ nodes') := by
  intro x hx hbears g' hgroup
  rcases List.mem_append.1 hx with hx | hx
  · rcases h x hx hbears g' hgroup with hgoes | ⟨y, hy, hopens⟩
    · exact .inl hgoes
    · exact .inr ⟨y, List.mem_append_left _ hy, hopens⟩
  · rcases h' x hx hbears g' hgroup with hgoes | ⟨y, hy, hopens⟩
    · exact .inl hgoes
    · exact .inr ⟨y, List.mem_append_right _ hy, hopens⟩

theorem cons (h : Node.Linked inside g close stop nodes)
    (hx : x.1.kind.bearsState = true → ∀ g', x.1.group = some g' →
      g = some g' ∧ x.1.GoesOn inside g' close stop) :
    Node.Linked inside g close stop (x :: nodes) := by
  intro y hy hbears g' hgroup
  rcases List.mem_cons.1 hy with rfl | hy
  · exact .inl (hx hbears g' hgroup)
  · rcases h y hy hbears g' hgroup with hgoes | ⟨z, hz, hopens⟩
    · exact .inl hgoes
    · exact .inr ⟨z, List.mem_cons_of_mem _ hz, hopens⟩

/-- The nodes of a group, with its start. -/
theorem group {start : Node} {index stop' : Nat} {close' : Option Nat}
    (h : Node.Linked inside (some index) close' stop' nodes) (hkind : start.kind = .groupOpen)
    (hclose : start.close = close') (hstop : ∀ c, close' = some c → stop' ≤ c)
    (hstart : ∀ g', start.group = some g' → g = some g' ∧ start.GoesOn inside g' close stop) :
    Node.Linked inside g close stop ((start, index) :: nodes) := by
  intro x hx hbears g' hgroup
  rcases List.mem_cons.1 hx with rfl | hx
  · exact .inl (hstart g' hgroup)
  · rcases h x hx hbears g' hgroup with ⟨hindex, hgoes⟩ | ⟨y, hy, hopens⟩
    · obtain rfl := Option.some.inj hindex
      refine .inr ⟨(start, index), List.mem_cons_self, rfl, hkind, stop', ?_, ?_⟩
      · rw [hclose]
        exact hstop
      · rw [hclose]
        exact hgoes
    · exact .inr ⟨y, List.mem_cons_of_mem _ hy, hopens⟩

end Node.Linked

/-! ## Linking a body -/

/-- What linking the nodes from `index` on leaves behind: the linked nodes, and
the outlook on their left. -/
structure Outlook.Links (inside : Option Nat → Nat → Prop) (g close : Option Nat) (stop : Nat)
    (outer : List (Option Nat × Bool)) (alternations : List (Option Nat)) (index : Nat)
    (result : List Node × Outlook) : Prop where
  within : Within inside g close stop outer result.2
  alternations : result.2.alternations = alternations
  ahead : ∀ t, result.2.follow = some t → index ≤ t
  linked : Node.Linked inside g close stop (result.1.zipIdx index)

namespace Outlook.Links

variable {alternations : List (Option Nat)} {node : Node} {nodes : List Node}

/-- A node on the left that belongs to no structure. -/
theorem leaf (h : Links inside g close stop outer alternations (index + 1) (nodes, o))
    (hkind : node.kind.isStructural = false)
    (hgroup : node.kind.bearsState = true → node.group = g ∧ node.endsGroup = false)
    (hinside : node.kind.bearsState = true → inside node.group index) (hlt : index < stop) :
    Links inside g close stop outer alternations index
      ((o.pass index node).1 :: nodes, (o.pass index node).2) := by
  rw [pass_leaf o index hkind]
  by_cases hbears : node.kind.bearsState = true
  · rw [if_pos hbears]
    obtain ⟨hg, hends⟩ := hgroup hbears
    have hopens : node.kind ≠ .groupOpen := by
      intro hopen
      rw [hopen] at hkind
      cases hkind
    refine ⟨?_, ?_, ?_, ?_⟩
    · exact h.within.advance rfl rfl (hg ▸ hinside hbears) hlt
    · exact (alternations_setTail _ _).trans h.alternations
    · intro t ht
      obtain rfl := Option.some.inj ((follow_setTail _ _).symm.trans ht)
      exact Nat.le_refl _
    · refine h.linked.cons fun _ g' hg' => ?_
      obtain rfl : g = some g' := hg.symm.trans hg'
      refine ⟨rfl, h.within.goesOn ?_ (if_neg hopens)⟩
      show (node.endsGroup || o.isTail) = o.isTail
      rw [hends, Bool.false_or]
  · rw [if_neg hbears]
    refine ⟨h.within, h.alternations, fun t ht => ?_, h.linked.cons fun hbears' => absurd hbears' hbears⟩
    exact Nat.le_of_succ_le (h.ahead t ht)

/-- A bar on the left. -/
theorem bar (h : Links inside g close stop outer alternations (index + 1) (nodes, o))
    (hkind : node.kind = .bar) (hclose : alternations.headD none = close)
    (hstop : ∀ c, close = some c → index ≤ c) :
    Links inside g close stop outer alternations index
      ((o.pass index node).1 :: nodes, (o.pass index node).2) := by
  have hfollow : o.alternations.headD none = close := by
    rw [h.alternations]
    exact hclose
  have hpass : o.pass index node = (node, { o with follow := o.alternations.headD none }.setTail true) := by
    rw [pass, hkind]
  rw [hpass]
  refine ⟨h.within.bar rfl hfollow, (alternations_setTail _ _).trans h.alternations, fun t ht => ?_, ?_⟩
  · exact hstop t (hfollow.symm.trans ((follow_setTail _ _).symm.trans ht))
  · refine h.linked.cons fun hbears => ?_
    rw [hkind] at hbears
    cases hbears

/-- A group on the left: its end, its body and its start. -/
theorem group {start finish : Node} {inner : List Node} {o' : Outlook} {opened : Nat}
    (h : Links inside g close stop outer alternations (index + 1 + inner.length + 1) (nodes, o))
    (hinner : Links inside (some index) o.follow (index + 1 + inner.length) o.groups alternations
      (index + 1) (inner, o'))
    (hstart : start.kind = .groupOpen) (hgroup : start.group = g ∧ start.endsGroup = false)
    (hfinish : finish.kind = .groupClose opened) (hinside : inside start.group index)
    (hlt : index < stop) :
    Links inside g close stop outer alternations index
      ((o'.pass index start).1 :: (inner ++ finish :: nodes), (o'.pass index start).2) := by
  obtain ⟨tail, hgroups⟩ := hinner.within.groups_eq
  have hpass : o'.pass index start =
      ({ o' with groups := o.groups }.visit index { start with close := o.follow }) := by
    have hclose : o'.close = o.follow := by
      rw [Outlook.close, hgroups]
      rfl
    rw [pass, hstart, hclose, hgroups]
    rfl
  rw [hpass]
  refine ⟨?_, ?_, ?_, ?_⟩
  · exact h.within.advance rfl rfl (hgroup.1 ▸ hinside) hlt
  · exact (alternations_setTail _ _).trans hinner.alternations
  · intro t ht
    obtain rfl := Option.some.inj ((follow_setTail _ _).symm.trans ht)
    exact Nat.le_refl _
  · have hafter : ∀ c, o.follow = some c → index + 1 + inner.length ≤ c := fun c hc =>
      Nat.le_of_succ_le (h.ahead c hc)
    have hrest := h.linked.cons (x := (finish, index + 1 + inner.length)) fun hbears => by
      rw [hfinish] at hbears
      cases hbears
    rw [List.zipIdx_cons, List.zipIdx_append, List.zipIdx_cons, ← List.cons_append]
    refine Node.Linked.append (hinner.linked.group hstart rfl hafter fun g' hg' => ?_) hrest
    obtain rfl : g = some g' := hgroup.1.symm.trans hg'
    refine ⟨rfl, h.within.goesOn ?_ (if_pos hstart)⟩
    show (start.endsGroup || ({ o' with groups := o.groups } : Outlook).isTail) = o.isTail
    rw [hgroup.2, Bool.false_or]
    rfl

/-- The ends of an alternation on both sides of it. -/
theorem marked {start finish : Node} {follow : Option Nat}
    (h : Links inside g close stop outer (follow :: alternations) (index + 1) (nodes, o))
    (hstart : start.kind = .alternationStart) (hfinish : finish.kind = .alternationEnd) :
    Links inside g close stop outer alternations index
      (start :: (nodes ++ [finish]), { o with alternations := o.alternations.tail }) := by
  have hidle {node : Node} (hkind : node.kind.bearsState = false) (place : Nat)
      {nodes : List (Node × Nat)} (h : Node.Linked inside g close stop nodes) :
      Node.Linked inside g close stop ((node, place) :: nodes) :=
    h.cons fun hbears => absurd (hkind.symm.trans hbears) Bool.false_ne_true
  refine ⟨h.within.congr rfl rfl, ?_, fun t ht => Nat.le_of_succ_le (h.ahead t ht), ?_⟩
  · exact congrArg List.tail h.alternations
  · rw [List.zipIdx_cons, List.zipIdx_append, List.zipIdx_singleton]
    exact hidle (by rw [hstart]; rfl) _ (h.linked.append (hidle (by rw [hfinish]; rfl) _ .nil))

end Outlook.Links

/-- What the outlook on the right of a part has to say of alternations. -/
def Part.Allows (close : Option Nat) (o : Outlook) : Part → Prop
  | .body => o.follow = close
  | .rest barred => barred = true → o.alternations.headD none = close

/-- **Linking a body** leaves the walk as it found it, and every node of a group
in it goes on as it should. -/
theorem Layout.links {part : Part} {nodes : List Node} (h : Layout part g index nodes)
    (hinside : ∀ x ∈ nodes.zipIdx index, x.1.kind.bearsState = true → inside x.1.group x.2)
    (hstop : index + nodes.length ≤ stop) (hclose : ∀ c, close = some c → stop ≤ c)
    (hahead : ∀ t, o.follow = some t → index + nodes.length ≤ t)
    (hwithin : o.Within inside g close stop outer) (hpart : part.Allows close o) :
    Outlook.Links inside g close stop outer o.alternations index (o.passAll index nodes) := by
  induction h generalizing close stop outer o with
  | nil => exact ⟨hwithin, rfl, hahead, .nil⟩
  | leaf hkind hgroup _ ih =>
    rw [List.zipIdx_cons, List.forall_mem_cons] at hinside
    rw [List.length_cons] at hstop hahead
    have hrest := ih hinside.2 (by omega) hclose (fun t ht => by have := hahead t ht; omega) hwithin hpart
    exact hrest.leaf hkind hgroup hinside.1 (by omega)
  | bar hkind _ ih =>
    rw [List.zipIdx_cons, List.forall_mem_cons] at hinside
    rw [List.length_cons] at hstop hahead
    have hrest := ih hinside.2 (by omega) hclose (fun t ht => by have := hahead t ht; omega) hwithin hpart
    exact hrest.bar hkind (hpart rfl) fun c hc => by have := hclose c hc; omega
  | @group _ g i opened start finish inner nodes hstart hgroup _ hfinish _ ihInner ihRest =>
    rw [List.zipIdx_cons, List.zipIdx_append, List.zipIdx_cons, List.forall_mem_cons,
      List.forall_mem_append, List.forall_mem_cons] at hinside
    obtain ⟨hinsideStart, hinsideInner, -, hinsideRest⟩ := hinside
    simp only [List.length_cons, List.length_append] at hstop hahead
    have hrest := ihRest hinsideRest (by omega) hclose (fun t ht => by have := hahead t ht; omega)
      hwithin hpart
    rw [Outlook.passAll_group o i hfinish]
    obtain ⟨later, hlater⟩ : ∃ later, o.passAll (i + 1 + inner.length + 1) nodes = later := ⟨_, rfl⟩
    simp only [hlater] at hrest ⊢
    have hafter : ∀ t, later.2.follow = some t → i + 1 + inner.length ≤ t := fun t ht =>
      Nat.le_of_succ_le (hrest.ahead t ht)
    -- Right before the end of the group, going on means going on after it.
    have hbody := @ihInner later.2.follow (i + 1 + inner.length) later.2.groups later.2.insideGroup
      hinsideInner (Nat.le_refl _) hafter hafter (.tail rfl rfl) rfl
    have halternations : later.2.insideGroup.alternations = o.alternations := hrest.alternations
    have hlen : (later.2.insideGroup.passAll (i + 1) inner).1.length = inner.length :=
      Outlook.length_passAll ..
    rw [halternations, ← hlen] at hbody
    rw [← hlen] at hrest
    exact hrest.group hbody hstart hgroup hfinish (hinsideStart (by rw [hstart]; rfl)) (by omega)
  | plain _ ih => exact ih hinside hstop hclose hahead hwithin nofun
  | @marked g i start finish inner hstart hgroup _ hfinish ih =>
    rw [List.zipIdx_cons, List.zipIdx_append, List.forall_mem_cons, List.forall_mem_append] at hinside
    simp only [List.length_cons, List.length_append, List.length_nil] at hstop hahead
    rw [Outlook.passAll_marked o i hstart hfinish]
    have hahead' : ∀ t, o.follow = some t → i + 1 + inner.length ≤ t := fun t ht => by
      have := hahead t ht
      omega
    -- Every branch goes on where the whole body does.
    have hbody := @ih close stop outer o.insideAlternation hinside.2.1 (by omega) hclose hahead'
      (hwithin.congr rfl rfl) fun _ => hpart
    exact hbody.marked hstart hfinish

/-! ## Linking a pattern -/

namespace Outlook

theorem group_pass (o : Outlook) (index : Nat) (node : Node) : (o.pass index node).1.group = node.group := by
  unfold pass
  split
  · rfl
  · rfl
  · rfl
  · rfl
  · rfl
  · split <;> rfl

/-- Linking leaves every node its kind and its group. -/
theorem getElem?_passAll (o : Outlook) (index : Nat) (nodes : List Node) (i : Nat) {node : Node}
    (h : nodes[i]? = some node) :
    ∃ node', (o.passAll index nodes).1[i]? = some node' ∧ node'.kind = node.kind ∧
      node'.group = node.group := by
  induction nodes generalizing index i with
  | nil => cases h
  | cons head rest ih =>
    cases i with
    | zero =>
      obtain rfl := Option.some.inj h
      exact ⟨_, rfl, kind_pass .., group_pass ..⟩
    | succ i => exact ih (index + 1) i h

/-- Nodes that bear nothing say nothing about where to go on. -/
theorem passAll_idle (o : Outlook) (index : Nat) {nodes : List Node}
    (h : ∀ node ∈ nodes, node.kind.isStructural = false ∧ node.kind.bearsState = false) :
    o.passAll index nodes = (nodes, o) := by
  induction nodes generalizing index with
  | nil => rfl
  | cons node nodes ih =>
    obtain ⟨⟨hleaf, hidle⟩, hrest⟩ := List.forall_mem_cons.1 h
    rw [passAll_cons, ih (index + 1) hrest]
    simp only [pass_leaf o index hleaf, hidle, Bool.false_eq_true, if_false]

end Outlook

/-- A node of a list bears a state and lies in the given group, if in any. -/
def Node.BearsIn (nodes : List Node) (g : Option Nat) (index : Nat) : Prop :=
  ∃ node, nodes[index]? = some node ∧ node.kind.bearsState = true ∧ node.group = g

/-- **In a linked pattern every node of a group goes on as it should**: after
the group if it ends the group, and with a node of the group if not. -/
theorem Node.LaidOut.goesOn {nodes : List Node} (h : LaidOut nodes) {index g : Nat} {node : Node}
    (hnode : (linkNodes nodes)[index]? = some node) (hbears : node.kind.bearsState = true)
    (hgroup : node.group = some g) :
    ∃ start, (linkNodes nodes)[g]? = some start ∧ start.kind = .groupOpen ∧
      ∃ stop, (∀ c, start.close = some c → stop ≤ c) ∧
        node.GoesOn (BearsIn (linkNodes nodes)) g start.close stop := by
  obtain ⟨body, after, rfl, hlayout, hafter⟩ := h
  have hlink : linkNodes (body ++ after) = (Outlook.empty.passAll 0 body).1 ++ after := by
    rw [linkNodes, Outlook.passAll_append]
    simp only [Outlook.passAll_idle _ _ hafter]
  have hinside : ∀ x ∈ body.zipIdx 0, x.1.kind.bearsState = true →
      BearsIn (linkNodes (body ++ after)) x.1.group x.2 := by
    intro x hx hbears
    obtain ⟨node', hnode', hkind, hgroup⟩ :=
      Outlook.empty.getElem?_passAll 0 body x.2 (List.mem_zipIdx_iff_getElem?.1 hx)
    refine ⟨node', ?_, hkind ▸ hbears, hgroup⟩
    rw [hlink, List.getElem?_append_left (List.getElem?_eq_some_iff.1 hnode').1]
    exact hnode'
  have hlinks : Outlook.Links (BearsIn (linkNodes (body ++ after))) none none body.length [] [] 0
      (Outlook.empty.passAll 0 body) := by
    refine @Layout.links _ none none body.length 0 [] .empty .body body hlayout hinside ?_ ?_ ?_ (.top rfl) rfl
    · rw [Nat.zero_add]
    · intro c hc
      cases hc
    · intro t ht
      cases ht
  rw [hlink] at hnode hlinks ⊢
  by_cases hplace : index < (Outlook.empty.passAll 0 body).1.length
  · rw [List.getElem?_append_left hplace] at hnode
    have hmem : (node, index) ∈ (Outlook.empty.passAll 0 body).1.zipIdx 0 :=
      List.mem_zipIdx_iff_getElem?.2 hnode
    rcases hlinks.linked _ hmem hbears g hgroup with ⟨hnone, -⟩ | ⟨y, hy, rfl, hkind, stop, hstop, hgoes⟩
    · cases hnone
    · have hstart := List.mem_zipIdx_iff_getElem?.1 hy
      refine ⟨y.1, ?_, hkind, stop, hstop, hgoes⟩
      rw [List.getElem?_append_left (List.getElem?_eq_some_iff.1 hstart).1]
      exact hstart
  · rw [List.getElem?_append_right (Nat.le_of_not_lt hplace)] at hnode
    have hidle := (hafter node (List.mem_of_getElem? hnode)).2
    exact absurd (hidle.symm.trans hbears) Bool.false_ne_true

end RegexAutomaton
