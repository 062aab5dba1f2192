/-
Outlines in a list of nodes.

A `Spot` is where an outline lies in a list of linked nodes, with what the list
around it means to it. Going on in the outline leads from spot to spot, and at
every spot the nodes give the states that the outline lists
(`states_of_spot`).
-/
import RegexAutomaton.Proofs.OutlineStates

namespace RegexAutomaton

/-! ## Parts of a list -/

namespace Node

/-- How many alternations are open before an index. -/
def depthAt (nodes : List Node) (index : Nat) : Nat := depthFrom 0 (nodes.take index)

variable {nodes part later : List Node} {i : Nat}

theorem take_add_of_drop (h : nodes.drop i = part ++ later) :
    nodes.take (i + part.length) = nodes.take i ++ part := by
  rw [List.take_add, h, List.take_left]

theorem rank_add_of_drop (h : nodes.drop i = part ++ later) :
    rank nodes (i + part.length) = rank nodes i + part.countP (·.kind.bearsState) := by
  rw [rank, take_add_of_drop h, List.countP_append, rank]

theorem depthAt_add_of_drop (h : nodes.drop i = part ++ later) :
    depthAt nodes (i + part.length) = depthFrom (depthAt nodes i) part := by
  rw [depthAt, take_add_of_drop h, depthFrom, List.foldl_append]
  rfl

/-- A node that bears no state gives none. -/
theorem state?_of_idle {node : Node} (hnode : nodes[i]? = some node) (hidle : node.kind.bearsState = false) :
    state? nodes i = none := by
  cases hstate : state? nodes i with
  | none => rfl
  | some s =>
    have hsome := isSome_state? hnode
    rw [hstate, hidle] at hsome
    cases hsome

theorem filterMap_state?_of_idle (h : nodes.drop i = part ++ later)
    (hidle : part.countP (·.kind.bearsState) = 0) :
    (List.range' i part.length).filterMap (state? nodes) = [] := by
  induction part generalizing i with
  | nil => rfl
  | cons node part ih =>
    rw [List.countP_cons] at hidle
    have hbears : node.kind.bearsState = false := by
      by_contra hbears
      simp [hbears] at hidle
    have hrest : nodes.drop (i + 1) = part ++ later := drop_succ_of_drop h
    rw [List.length_cons, List.range'_succ,
      List.filterMap_cons_none (state?_of_idle (getElem?_of_drop h) hbears), ih hrest (by omega)]

/-- Something holds of the nodes in a stretch of a list. -/
def Stretch (nodes : List Node) (P : Nat → Node → Prop) (i length : Nat) : Prop :=
  ∀ k, i ≤ k → k < i + length → ∃ node, nodes[k]? = some node ∧ P k node

theorem stretch_nil (nodes : List Node) (P : Nat → Node → Prop) (i : Nat) : Stretch nodes P i 0 :=
  fun k hk hlt => by omega

theorem Stretch.cons {P : Nat → Node → Prop} {node : Node} {length : Nat} (hnode : nodes[i]? = some node)
    (hfirst : P i node) (h : Stretch nodes P (i + 1) length) : Stretch nodes P i (length + 1) := by
  intro k hk hlt
  rcases Nat.eq_or_lt_of_le hk with rfl | hk
  · exact ⟨node, hnode, hfirst⟩
  · exact h k hk (by omega)

theorem Stretch.append {P : Nat → Node → Prop} {length length' : Nat} (h : Stretch nodes P i length)
    (h' : Stretch nodes P (i + length) length') : Stretch nodes P i (length + length') := by
  intro k hk hlt
  by_cases hleft : k < i + length
  · exact h k hk hleft
  · exact h' k (Nat.le_of_not_lt hleft) (by omega)

end Node

namespace Outline

/-- An outline lies in a list of linked nodes. The first of its nodes has the
index `i` and the first of its states the number `n`; `later` comes after it,
`f` is the node to go on with after a branch, `g` opens the group around, and
`d` alternations are open. -/
structure Spot (nodes : List Node) (o : Outline) (c : Setting) (f g : Option Nat) (d i n : Nat)
    (later : List Node) : Prop where
  lies : nodes.drop i = o.linked f g i ++ later
  number : Node.rank nodes i = n
  accept : Node.rank nodes nodes.length = c.accept
  follow : Node.targetState nodes c.accept f = c.follow
  group : Node.targetState nodes (c.accept + 1) g = c.group
  member : g.isSome = c.member
  fail : Node.targetState nodes (c.accept + 1) (Node.nextBranch? d 0 (i + o.length) later) = c.fail
  depth : Node.depthAt nodes i = d
  barred : o.barred = true → 0 < d
  repeats : ∀ x r, i ≤ x → x < i + o.length →
    ((x, r) ∈ Node.quantified 0 none nodes ↔ (x, r) ∈ o.repetitions i)

namespace Spot

variable {nodes later : List Node} {o o' inner rest : Outline} {c : Setting} {f g : Option Nat} {d i i' n : Nat}
  {kind : NodeKind} {hleaf : kind.isStructural = false}

/-- Going on behind some nodes of the outline, within the same body. -/
theorem skip (h : Spot nodes o c f g d i n later) (part : List Node)
    (hpart : o.linked f g i = part ++ o'.linked f g i') (hi : i' = i + part.length)
    (hlength : i + o.length = i' + o'.length) (hdepth : ∀ depth, Node.depthFrom depth part = depth)
    (hbarred : o'.barred = true → o.barred = true)
    (hrepeats : ∀ x r, i' ≤ x → ((x, r) ∈ o.repetitions i ↔ (x, r) ∈ o'.repetitions i')) :
    Spot nodes o' c f g d i' (n + part.countP (·.kind.bearsState)) later := by
  have hlies : nodes.drop i = part ++ (o'.linked f g i' ++ later) := by
    rw [h.lies, hpart, List.append_assoc]
  refine ⟨?_, ?_, h.accept, h.follow, h.group, h.member, ?_, ?_, fun hb => h.barred (hbarred hb), ?_⟩
  · rw [hi] at hlies ⊢
    exact drop_add_of_drop hlies
  · rw [hi, Node.rank_add_of_drop hlies, h.number]
  · rw [← hlength]
    exact h.fail
  · rw [hi, Node.depthAt_add_of_drop hlies, hdepth, h.depth]
  · intro x r hx hlt
    rw [h.repeats x r (by omega) (by omega), hrepeats x r hx]

/-- Behind a leaf. -/
theorem leaf (h : Spot nodes (leaf kind hleaf rest) c f g d i n later) :
    Spot nodes rest c f g d (i + 1) (n + if kind.bearsState then 1 else 0) later := by
  have hskip : Spot nodes rest c f g d (i + 1) _ later := h.skip [if kind.bearsState then
    linkedNode kind (rest.entryAt f (i + 1)) none g (!rest.opens) else .bare kind 0 0 g] rfl rfl
    (by simp only [length]; omega) ?_ id ?_
  · rwa [List.countP_singleton, kind_leaf] at hskip
  · intro depth
    rw [Node.depthFrom, List.foldl_cons, depthAfter_of_isLeaf (by rw [kind_leaf, hleaf])]
    rfl
  · intro x r hx
    have hne : ¬ (if kind.bearsState then some i else none) = some x := by
      split <;> simp
      omega
    simp only [repetitions, List.mem_append, mem_repeating, hne, false_and, false_or]

/-- Behind a bar. -/
theorem bar (h : Spot nodes (bar rest) c f g d i n later) : Spot nodes rest c f g d (i + 1) n later :=
  h.skip [.bare .bar 0 0 g] rfl rfl (by simp only [length]; omega) (fun depth => rfl) (fun _ => rfl)
    fun x r hx => Iff.rfl

/-- Behind a group. -/
theorem behind (h : Spot nodes (.group inner rest) c f g d i n later) :
    Spot nodes rest c f g d (i + 1 + inner.span + 1) (n + 1 + inner.size) later := by
  obtain ⟨after, hafter⟩ : ∃ after, after = rest.entryAt f (i + 1 + inner.span + 1) := ⟨_, rfl⟩
  have hpart : (Outline.group inner rest).linked f g i =
      (linkedNode .groupOpen (inner.entryAt after (i + 1 + inner.margin)) after g (!rest.opens) ::
        (inner.linkedBody after (some i) (i + 1) ++ [.bare (.groupClose i) 0 0 g])) ++
          rest.linked f g (i + 1 + inner.span + 1) := by
    rw [linked_group, ← hafter]
    simp
  have hskip := h.skip _ hpart (by simp; omega) (by rw [length_group]; omega) ?_ id ?_
  · have hcount : n + List.countP (·.kind.bearsState)
        (linkedNode .groupOpen (inner.entryAt after (i + 1 + inner.margin)) after g (!rest.opens) ::
          (inner.linkedBody after (some i) (i + 1) ++ [.bare (.groupClose i) 0 0 g])) =
            n + 1 + inner.size := by
      rw [List.countP_cons, List.countP_append, countP_linkedBody, kind_linkedNode]
      simp only [Node.bare, NodeKind.bearsState, List.countP_singleton, if_true, Bool.false_eq_true,
        if_false]
      omega
    rwa [hcount] at hskip
  · intro depth
    have hbody := inner.depthFrom_linkedBody after (some i) (i + 1) depth
    have hstart : Node.depthAfter depth
        (linkedNode .groupOpen (inner.entryAt after (i + 1 + inner.margin)) after g (!rest.opens)) = depth :=
      rfl
    rw [Node.depthFrom] at hbody
    rw [Node.depthFrom, List.foldl_cons, hstart, List.foldl_append, hbody]
    rfl
  · intro x r hx
    have hinner : (x, r) ∉ inner.repetitions (i + 1 + inner.margin) := fun hmem => by
      have hlt := (mem_repetitions hmem).2
      simp only [span] at hx
      omega
    have hne : ¬ some i = some x := by
      simp
      omega
    simp only [repetitions, List.mem_append, mem_repeating, hinner, hne, false_and, false_or]

/-- Where the branch that comes first is entered. -/
theorem target_entryAt (h : Spot nodes o c f g d i n later) :
    Node.targetState nodes c.accept (o.entryAt f i) = o.entry c n := by
  induction o generalizing i n with
  | nil => exact h.follow
  | bar rest _ => exact h.follow
  | leaf kind hleaf rest ih =>
    by_cases hbears : kind.bearsState = true
    · have hnode : nodes[i]? = some (linkedNode kind (rest.entryAt f (i + 1)) none g (!rest.opens)) := by
        have hlies := h.lies
        rw [linked, if_pos hbears] at hlies
        exact getElem?_of_drop hlies
      have hentry : (Outline.leaf kind hleaf rest).entry c n = n := by simp [entry, opens, hbears]
      rw [entryAt, if_pos hbears, Node.targetState_of_bears hnode hbears, h.number, hentry]
    · have hrest := ih h.leaf
      have hentry : (Outline.leaf kind hleaf rest).entry c n = rest.entry c n := by
        simp [entry, opens, hbears]
      rw [entryAt, if_neg hbears, hrest, if_neg hbears, hentry]
      rfl
  | group inner rest _ _ =>
    have hnode := getElem?_of_drop h.lies
    rw [entryAt, Node.targetState_of_bears hnode rfl, h.number]
    rfl

/-- Where the branch that comes first falls back to. -/
theorem target_nextBranch (h : Spot nodes o c f g d i n later) (hsound : o.Sound) :
    Node.targetState nodes (c.accept + 1)
      (Node.nextBranch? d 0 i (o.linked f g i ++ later)) = o.fallback c n := by
  induction o generalizing i n with
  | nil => exact h.fail
  | leaf kind hleaf rest ih =>
    obtain ⟨hstart, hend, hbar⟩ := ne_of_isLeaf hleaf
    rw [linked, List.cons_append, Node.nextBranch?_cons_of_ne, fallback, ← ih h.leaf hsound.2]
    all_goals rwa [kind_leaf]
  | bar rest ih =>
    obtain ⟨hleads, -⟩ := hsound
    obtain ⟨node, nodes', hnode, hbears⟩ := exists_linked_of_leads hleads f g (i + 1)
    have hentry : Node.nextBranch? d 0 i ((Outline.bar rest).linked f g i ++ later) = some (i + 1) := by
      have hnext : Node.bearer? 0 (i + 1) (rest.linked f g (i + 1) ++ later) = some (i + 1) := by
        rw [hnode, List.cons_append, Node.bearer?_cons_of_bears hbears]
      have hopened : 0 < d := h.barred rfl
      rw [← hnext]
      simp [linked, Node.nextBranch?, Node.bare, hopened]
    have hlies := h.bar.lies
    rw [hnode, List.cons_append] at hlies
    rw [hentry, Node.targetState_of_bears (getElem?_of_drop hlies) hbears, h.bar.number]
    rfl
  | group inner rest _ ihRest =>
    have hinner (after : Option Nat) (later : List Node) :
        Node.nextBranch? d 0 (i + 1) (inner.linkedBody after (some i) (i + 1) ++ later) =
          Node.nextBranch? d 0 (i + 1 + inner.span) later :=
      nextBranch?_linkedBody inner after (some i) (i + 1) 0 (i + 1) later
    rw [linked_group, List.cons_append, List.append_assoc, List.cons_append, fallback,
      ← ihRest h.behind hsound.2.2]
    show Node.targetState _ _ (Node.nextBranch? d 0 (i + 1) (inner.linkedBody _ _ _ ++ _)) = _
    rw [hinner]
    rfl

/-- Inside a group. -/
theorem within (h : Spot nodes (.group inner rest) c f g d i n later) (hsound : rest.Sound) :
    ∃ later', Spot nodes inner (rest.inside c n (n + 1 + inner.size))
      (rest.entryAt f (i + 1 + inner.span + 1)) (some i) (d + inner.margin) (i + 1 + inner.margin) (n + 1)
      later' := by
  obtain ⟨after, hafter⟩ : ∃ after, after = rest.entryAt f (i + 1 + inner.span + 1) := ⟨_, rfl⟩
  obtain ⟨front, back, hbody, hlength, -, hcount, -, hdepth, hback⟩ :=
    exists_linkedBody_eq inner after (some i) (i + 1)
  obtain ⟨start, hstart, hkind⟩ : ∃ start : Node,
      start = linkedNode .groupOpen (inner.entryAt after (i + 1 + inner.margin)) after g (!rest.opens) ∧
      start.kind = .groupOpen := ⟨_, rfl, rfl⟩
  have hlies : nodes.drop i = (start :: front) ++ (inner.linked after (some i) (i + 1 + inner.margin) ++
      (back ++ .bare (.groupClose i) 0 0 g :: (rest.linked f g (i + 1 + inner.span + 1) ++ later))) := by
    rw [h.lies, linked_group, ← hafter, hbody, hstart]
    simp
  have hplace : i + 1 + inner.margin = i + (start :: front).length := by
    rw [List.length_cons, hlength]
    omega
  have hbears : start.kind.bearsState = true := by rw [hkind]; rfl
  refine ⟨back ++ .bare (.groupClose i) 0 0 g :: (rest.linked f g (i + 1 + inner.span + 1) ++ later),
    ?_, ?_, h.accept, ?_, ?_, rfl, ?_, ?_, ?_, ?_⟩
  · rw [← hafter, hplace, drop_add_of_drop hlies, ← hplace]
  · rw [hplace, Node.rank_add_of_drop hlies, h.number, List.countP_cons, hcount, if_pos hbears]
  · exact h.behind.target_entryAt
  · exact (Node.targetState_of_bears (getElem?_of_drop hlies) hbears).trans h.number
  · have hnext := h.behind.target_nextBranch hsound
    have hspan : i + 1 + inner.margin + inner.length + inner.margin = i + 1 + inner.span := by
      simp only [span]
      omega
    rw [hback, hspan]
    exact hnext
  · rw [hplace, Node.depthAt_add_of_drop hlies, Node.depthFrom, List.foldl_cons, h.depth]
    have hstay : Node.depthAfter d start = d := by rw [Node.depthAfter, hkind]
    rw [hstay]
    exact hdepth d
  · intro hbarred
    simp [margin, hbarred]
  · intro x r hx hlt
    have hin : x < i + (Outline.group inner rest).length := by
      simp only [length_group, span]
      omega
    have hrest : (x, r) ∉ rest.repetitions (i + 1 + inner.span + 1) := fun hmem => by
      have hle := (mem_repetitions hmem).1
      simp only [span] at hle
      omega
    have hne : ¬ some i = some x := by
      simp
      omega
    rw [h.repeats x r (by omega) hin]
    simp only [repetitions, List.mem_append, mem_repeating, hrest, hne, false_and, or_false]

/-! ## The state of a node -/

/-- Where the first node falls back to. -/
theorem target_fallback (h : Spot nodes o c f g d i n later) (hsound : o.Sound) (hleads : o.leads = true) :
    Node.targetState nodes (c.accept + 1) (Node.fallback? nodes i) = o.fallback c n := by
  obtain ⟨node, rest, hrest, hbears⟩ := exists_linked_of_leads hleads f g i
  obtain ⟨hstart, hend, hbar⟩ := Node.ne_of_bearsState hbears
  have hlies := h.lies
  have hnext := h.target_nextBranch hsound
  rw [hrest, List.cons_append] at hlies hnext
  have hdrop : nodes.drop (i + 1) = rest ++ later := drop_succ_of_drop hlies
  rw [Node.nextBranch?_cons_of_ne hstart hend hbar] at hnext
  rw [Node.fallback?_eq (getElem?_of_drop hlies) hbears, hdrop, ← hnext, ← h.depth]
  rfl

/-- How often the first node repeats, if no other repetition in the outline is
for it. -/
theorem repetitionOf_eq (h : Spot nodes o c f g d i n later) (rest : Outline) (hlength : 0 < o.length)
    (hrest : ∀ r, (i, r) ∈ o.repetitions i ↔ rest.quantifier? = some r) :
    Node.repetitionOf nodes i = rest.repetition := by
  have hlookup : (Node.quantified 0 none nodes).reverse.lookup i = rest.quantifier? :=
    lookup_eq_of_mem_iff fun r => by
      rw [List.mem_reverse, h.repeats i r (Nat.le_refl i) (by omega), hrest]
  rw [Node.repetitionOf, hlookup, repetition]

theorem state?_linkedNode {kind : NodeKind} {next close g : Option Nat} {last : Bool} {guard : Guard}
    (hnode : nodes[i]? = some (linkedNode kind next close g last)) (hguard : Guard.ofKind? kind = some guard) :
    Node.state? nodes i = some (.closed (Node.rank nodes i)
      (Node.targetState nodes (Node.rank nodes nodes.length) next)
      (Node.targetState nodes (Node.rank nodes nodes.length + 1) (Node.fallback? nodes i))
      (Node.targetState nodes (Node.rank nodes nodes.length + 1) g)
      (if kind = .groupOpen then Node.targetState nodes (Node.rank nodes nodes.length) close
        else Node.rank nodes nodes.length)
      (Node.repetitionOf nodes i)
      { optional := (Node.repetitionOf nodes i).isOptional
        member := g.isSome
        repeatable := (Node.repetitionOf nodes i).isRepeatable
        endsGroup := g.isSome && last
        opensGroup := kind == .groupOpen } guard) := by
  simp only [Node.state?, hnode, bind, Option.bind, kind_linkedNode, hguard]
  rfl

theorem state?_leaf (h : Spot nodes (.leaf kind hleaf rest) c f g d i n later)
    (hsound : (Outline.leaf kind hleaf rest).Sound) {guard : Guard} (hguard : Guard.ofKind? kind = some guard) :
    Node.state? nodes i =
      some (rest.stateBefore c n (rest.entry c (n + 1)) (n + 1) c.accept false guard) := by
  have hbears := bearsState_of_guard hguard
  have hne : kind ≠ .groupOpen := by
    rintro rfl
    cases hleaf
  have hlies := h.lies
  rw [linked, if_pos hbears, List.cons_append] at hlies
  have hentry := h.leaf.target_entryAt
  have hfallback := h.target_fallback hsound hbears
  have hrepetition := h.repetitionOf_eq rest (Nat.succ_pos _) fun r => by
    have hrest : (i, r) ∉ rest.repetitions (i + 1) := fun hmem => by
      have hle := (mem_repetitions hmem).1
      omega
    simp only [repetitions, List.mem_append, mem_repeating, if_pos hbears, hrest, or_false, true_and]
  rw [if_pos hbears] at hentry
  rw [fallback, if_pos hbears] at hfallback
  rw [state?_linkedNode (getElem?_of_drop hlies) hguard, h.accept, h.number, hentry, hfallback, h.group,
    if_neg hne, hrepetition, h.member, beq_eq_false_iff_ne.2 hne]
  rfl

theorem state?_group (h : Spot nodes (.group inner rest) c f g d i n later)
    (hsound : (Outline.group inner rest).Sound) :
    Node.state? nodes i =
      some (rest.stateBefore c n (inner.entry (rest.inside c n (n + 1 + inner.size)) (n + 1))
        (n + 1 + inner.size) (rest.entry c (n + 1 + inner.size)) true .group) := by
  obtain ⟨later', hwithin⟩ := h.within hsound.2.2
  have hlies := h.lies
  rw [linked_group, List.cons_append] at hlies
  have hentry := hwithin.target_entryAt
  have hclose := h.behind.target_entryAt
  have hfallback := h.target_fallback hsound rfl
  have hrepetition := h.repetitionOf_eq rest (by rw [length_group]; omega) fun r => by
    have hinner : (i, r) ∉ inner.repetitions (i + 1 + inner.margin) := fun hmem => by
      have hle := (mem_repetitions hmem).1
      omega
    have hrest : (i, r) ∉ rest.repetitions (i + 1 + inner.span + 1) := fun hmem => by
      have hle := (mem_repetitions hmem).1
      omega
    simp only [repetitions, List.mem_append, mem_repeating, hinner, hrest, or_false, false_or, true_and]
  have haccept : (rest.inside c n (n + 1 + inner.size)).accept = c.accept := rfl
  rw [haccept] at hentry
  rw [state?_linkedNode (getElem?_of_drop hlies) rfl, h.accept, h.number, hentry, hclose, hfallback,
    h.group, if_pos rfl, hrepetition, h.member]
  rfl

/-- The indices of a group and of what is behind it. -/
theorem range'_group (inner rest : Outline) (i : Nat) :
    List.range' i (Outline.group inner rest).length =
      i :: (List.range' (i + 1) inner.margin ++ (List.range' (i + 1 + inner.margin) inner.length ++
        (List.range' (i + 1 + inner.margin + inner.length) (inner.margin + 1) ++
          List.range' (i + 1 + inner.span + 1) rest.length))) := by
  have hlength : (Outline.group inner rest).length =
      inner.margin + (inner.length + (inner.margin + 1 + rest.length)) + 1 := by
    simp only [length_group, span]
    omega
  have hplace : i + 1 + inner.span + 1 = i + 1 + inner.margin + inner.length + (inner.margin + 1) := by
    simp only [span]
    omega
  rw [hlength, List.range'_succ, hplace, List.range'_append_1, List.range'_append_1, List.range'_append_1]

/-- **At every spot the nodes give the states that the outline lists.** -/
theorem states_of_spot (h : Spot nodes o c f g d i n later) (hsound : o.Sound) :
    (List.range' i o.length).filterMap (Node.state? nodes) = o.states c n := by
  induction o generalizing c f g d i n later with
  | nil => rfl
  | leaf kind hleaf rest ih =>
    have hrest := ih h.leaf hsound.2
    rw [length, List.range'_succ]
    cases hguard : Guard.ofKind? kind with
    | some guard =>
      rw [if_pos (bearsState_of_guard hguard)] at hrest
      rw [List.filterMap_cons_some (h.state?_leaf hsound hguard), hrest, states_leaf hguard]
    | none =>
      have hbears := bearsState_of_idle hguard
      have hlies := h.lies
      rw [linked, List.cons_append] at hlies
      have hidle := Node.state?_of_idle (getElem?_of_drop hlies) (by rw [kind_leaf, hbears])
      rw [hbears] at hrest
      rw [List.filterMap_cons_none hidle, hrest, states_idle hguard]
      rfl
  | bar rest ih =>
    rw [length, List.range'_succ,
      List.filterMap_cons_none (Node.state?_of_idle (getElem?_of_drop h.lies) rfl)]
    exact ih h.bar hsound.2
  | group inner rest ihInner ihRest =>
    obtain ⟨later', hwithin⟩ := h.within hsound.2.2
    obtain ⟨after, hafter⟩ : ∃ after, after = rest.entryAt f (i + 1 + inner.span + 1) := ⟨_, rfl⟩
    obtain ⟨front, back, hbody, hfront, hback, hfrontIdle, hbackIdle, -, -⟩ :=
      exists_linkedBody_eq inner after (some i) (i + 1)
    have hlies : nodes.drop (i + 1) = front ++ (inner.linked after (some i) (i + 1 + inner.margin) ++
        (back ++ [.bare (.groupClose i) 0 0 g] ++ (rest.linked f g (i + 1 + inner.span + 1) ++ later))) := by
      have hdrop := h.lies
      rw [linked_group, ← hafter, hbody] at hdrop
      refine (drop_succ_of_drop hdrop).trans ?_
      simp
    have hinner := drop_add_of_drop hlies
    have hend := drop_add_of_drop hinner
    rw [length_linked, hfront] at hend
    have hidleFront := Node.filterMap_state?_of_idle hlies hfrontIdle
    have hidleBack := Node.filterMap_state?_of_idle hend (by rw [List.countP_append, hbackIdle]; rfl)
    rw [hfront] at hidleFront
    rw [List.length_append, hback, List.length_singleton] at hidleBack
    rw [range'_group, List.filterMap_cons_some (h.state?_group hsound), List.filterMap_append,
      List.filterMap_append, List.filterMap_append, hidleFront, hidleBack, ihInner hwithin hsound.2.1,
      ihRest h.behind hsound.2.2, states_group]
    rfl

end Spot

end Outline

end RegexAutomaton
