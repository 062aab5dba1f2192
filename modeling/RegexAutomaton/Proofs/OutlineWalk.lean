/-
Walks over the nodes of an outline.

What the states of a pattern take from the list as a whole is counted, looked
up or searched for in it: the number of a state, the next branch and the
quantifiers. Each of these passes over a body in a way that the outline tells
beforehand.
-/
import RegexAutomaton.Proofs.NextBranch
import RegexAutomaton.Proofs.OutlineLinks
import RegexAutomaton.Proofs.States

namespace RegexAutomaton

namespace Node

variable {node : Node} {rest : List Node} {i : Nat} {atom : Option Nat}

theorem quantified_cons_of_bears (h : node.kind.bearsState = true) :
    quantified i atom (node :: rest) = quantified (i + 1) (some i) rest := by
  rw [quantified.eq_def]
  cases hkind : node.kind <;> simp_all [NodeKind.bearsState]

/-- A leaf that bears no state may be a quantifier. -/
theorem quantified_cons_of_idle (h : node.kind.bearsState = false) (hleaf : node.kind.isStructural = false) :
    quantified i atom (node :: rest) =
      (atom.bind fun x => node.kind.repetition?.map (x, ·)).toList ++ quantified (i + 1) atom rest := by
  rw [quantified.eq_def]
  cases hkind : node.kind <;>
    simp_all [NodeKind.bearsState, NodeKind.isStructural, NodeKind.repetition?]
  cases atom <;> rfl

end Node

/-- A leaf that may be repeated bears a state. -/
theorem NodeKind.bearsState_of_isRepeatable {kind : NodeKind} (hleaf : kind.isStructural = false)
    (h : kind.isRepeatable = true) : kind.bearsState = true := by
  cases kind <;> simp_all [isStructural, isRepeatable, bearsState]

namespace Outline

/-- The number of nodes that bear a state. -/
def size : Outline → Nat
  | nil => 0
  | leaf kind _ rest => (if kind.bearsState then 1 else 0) + rest.size
  | bar rest => rest.size
  | group inner rest => 1 + inner.size + rest.size

/-- The first node, as far as what follows it is concerned. -/
@[simp] theorem kind_linkedNode (kind : NodeKind) (next close g : Option Nat) (last : Bool) :
    (linkedNode kind next close g last).kind = kind := rfl

theorem kind_leaf (kind : NodeKind) (next g : Option Nat) (last : Bool) :
    (if kind.bearsState then linkedNode kind next none g last else .bare kind 0 0 g).kind = kind := by
  split <;> rfl

variable {f g : Option Nat} {i : Nat}

/-! ## Counting -/

theorem countP_wrap (barred : Bool) (g : Option Nat) (nodes : List Node) :
    (wrap barred g nodes).countP (·.kind.bearsState) = nodes.countP (·.kind.bearsState) := by
  unfold wrap
  split
  · simp [Node.bare, NodeKind.bearsState]
  · rfl

theorem countP_linked (o : Outline) (f g : Option Nat) (i : Nat) :
    (o.linked f g i).countP (·.kind.bearsState) = o.size := by
  induction o generalizing f g i with
  | nil => rfl
  | leaf kind hleaf rest ih =>
    rw [linked, List.countP_cons, ih, kind_leaf, size, Nat.add_comm]
  | bar rest ih => exact ih f g (i + 1)
  | group inner rest ihInner ihRest =>
    simp only [linked, List.countP_cons, List.countP_append, countP_wrap, ihInner, ihRest, size,
      kind_linkedNode]
    simp [Node.bare, NodeKind.bearsState]
    omega

/-- A body closes the alternations that it opens. -/
theorem depthFrom_wrap {barred : Bool} {nodes : List Node} (g : Option Nat)
    (h : ∀ depth, Node.depthFrom depth nodes = depth) (depth : Nat) :
    Node.depthFrom depth (wrap barred g nodes) = depth := by
  have hinner : List.foldl Node.depthAfter (depth + 1) nodes = depth + 1 := h (depth + 1)
  unfold wrap
  split
  · simp [Node.depthFrom, Node.depthAfter, Node.bare, hinner]
  · exact h depth

/-- A leaf opens and closes no alternation. -/
theorem depthAfter_of_isLeaf {node : Node} (h : node.kind.isStructural = false) (depth : Nat) :
    Node.depthAfter depth node = depth := by
  unfold Node.depthAfter
  cases hkind : node.kind <;> simp_all [NodeKind.isStructural]

theorem depthFrom_linked (o : Outline) (f g : Option Nat) (i depth : Nat) :
    Node.depthFrom depth (o.linked f g i) = depth := by
  induction o generalizing f g i depth with
  | nil => rfl
  | leaf kind hleaf rest ih =>
    have hkind := kind_leaf kind (rest.entryAt f (i + 1)) g (!rest.opens)
    rw [linked, Node.depthFrom, List.foldl_cons, depthAfter_of_isLeaf (by rw [hkind, hleaf])]
    exact ih f g (i + 1) depth
  | bar rest ih => exact ih f g (i + 1) depth
  | group inner rest ihInner ihRest =>
    have hinner := @depthFrom_wrap inner.barred _ (some i)
      (ihInner (rest.entryAt f (i + 1 + inner.span + 1)) (some i) (i + 1 + inner.margin)) depth
    rw [linked, Node.depthFrom, List.foldl_cons, List.foldl_append, List.foldl_cons]
    show Node.depthFrom (Node.depthAfter (Node.depthFrom depth (wrap _ _ _)) _) _ = depth
    rw [hinner]
    exact ihRest f g _ depth

theorem countP_linkedBody (o : Outline) (f g : Option Nat) (i : Nat) :
    (o.linkedBody f g i).countP (·.kind.bearsState) = o.size :=
  (countP_wrap ..).trans (o.countP_linked ..)

theorem depthFrom_linkedBody (o : Outline) (f g : Option Nat) (i depth : Nat) :
    Node.depthFrom depth (o.linkedBody f g i) = depth :=
  depthFrom_wrap g (o.depthFrom_linked f g _) depth

/-! ## The next branch -/

variable {opened depth : Nat} {later : List Node}

/-- A whole body is passed over, because its bars are hidden in it. -/
theorem nextBranch?_body_of {o : Outline}
    (h : ∀ depth k later, (0 < depth ∨ o.barred = false) →
      Node.nextBranch? opened depth k (o.linked f g (i + o.margin) ++ later) =
        Node.nextBranch? opened depth (k + o.length) later) (depth k : Nat) (later : List Node) :
    Node.nextBranch? opened depth k (o.linkedBody f g i ++ later) =
      Node.nextBranch? opened depth (k + o.span) later := by
  by_cases hbarred : o.barred = true
  · have hinner := h (depth + 1) (k + 1) (.bare .alternationEnd 0 0 g :: later) (.inl (Nat.succ_pos depth))
    have hlinked : o.linkedBody f g i ++ later = .bare .alternationStart 0 0 g ::
        (o.linked f g (i + o.margin) ++ .bare .alternationEnd 0 0 g :: later) := by
      simp [linkedBody, wrap, hbarred]
    have hplace : k + o.span = k + 1 + o.length + 1 := by
      simp only [span, margin, hbarred, if_true]
      omega
    rw [hlinked, hplace]
    exact hinner
  · have hspan : o.span = o.length := by simp [span, margin, hbarred]
    rw [linkedBody, wrap, if_neg hbarred, hspan]
    exact h depth k later (.inr (by simpa using hbarred))

/-- A leaf is no part of an alternation. -/
theorem ne_of_isLeaf {kind : NodeKind} (h : kind.isStructural = false) :
    kind ≠ .alternationStart ∧ kind ≠ .alternationEnd ∧ kind ≠ .bar := by
  refine ⟨?_, ?_, ?_⟩ <;> rintro rfl <;> cases h

theorem nextBranch?_linked (o : Outline) (f g : Option Nat) (i : Nat) (depth k : Nat) (later : List Node)
    (h : 0 < depth ∨ o.barred = false) :
    Node.nextBranch? opened depth k (o.linked f g i ++ later) =
      Node.nextBranch? opened depth (k + o.length) later := by
  induction o generalizing f g i depth k later with
  | nil => rfl
  | leaf kind hleaf rest ih =>
    obtain ⟨hstart, hend, hbar⟩ := ne_of_isLeaf hleaf
    have hplace : k + (leaf kind hleaf rest).length = k + 1 + rest.length := by
      simp only [length]
      omega
    rw [linked, List.cons_append, Node.nextBranch?_cons_of_ne, ih f g (i + 1) depth (k + 1) later h, hplace]
    all_goals rwa [kind_leaf]
  | bar rest ih =>
    have hdepth : 0 < depth := by
      rcases h with hdepth | hbarred
      · exact hdepth
      · cases hbarred
    have hplace : k + (bar rest).length = k + 1 + rest.length := by
      simp only [length]
      omega
    have hne : ¬ (depth = 0 ∧ 0 < opened) := by omega
    rw [linked, List.cons_append, hplace, ← ih f g (i + 1) depth (k + 1) later (.inl hdepth)]
    simp [Node.nextBranch?, Node.bare, hne]
  | group inner rest ihInner ihRest =>
    have hplace : k + (group inner rest).length = k + 1 + inner.span + 1 + rest.length := by
      rw [length_group]
      omega
    have hinner (f g : Option Nat) (i k : Nat) (later : List Node) :
        Node.nextBranch? opened depth k (inner.linkedBody f g i ++ later) =
          Node.nextBranch? opened depth (k + inner.span) later :=
      nextBranch?_body_of (ihInner f g (i + inner.margin)) depth k later
    rw [linked_group, List.cons_append, List.append_assoc, List.cons_append]
    show Node.nextBranch? opened depth (k + 1) (inner.linkedBody _ _ _ ++ _) = _
    rw [hinner]
    show Node.nextBranch? opened depth (k + 1 + inner.span + 1) (rest.linked _ _ _ ++ _) = _
    rw [ihRest f g _ depth _ later h, hplace]

theorem nextBranch?_linkedBody (o : Outline) (f g : Option Nat) (i depth k : Nat) (later : List Node) :
    Node.nextBranch? opened depth k (o.linkedBody f g i ++ later) =
      Node.nextBranch? opened depth (k + o.span) later :=
  nextBranch?_body_of (o.nextBranch?_linked f g (i + o.margin)) depth k later

/-- The ends of an alternation around a body, and what they mean to walks. -/
theorem exists_linkedBody_eq (o : Outline) (f g : Option Nat) (i : Nat) :
    ∃ front back, o.linkedBody f g i = front ++ (o.linked f g (i + o.margin) ++ back) ∧
      front.length = o.margin ∧ back.length = o.margin ∧ front.countP (·.kind.bearsState) = 0 ∧
      back.countP (·.kind.bearsState) = 0 ∧ (∀ depth, Node.depthFrom depth front = depth + o.margin) ∧
      ∀ opened k later, Node.nextBranch? (opened + o.margin) 0 k (back ++ later) =
        Node.nextBranch? opened 0 (k + o.margin) later := by
  by_cases hbarred : o.barred = true
  · have hmargin : o.margin = 1 := by simp [margin, hbarred]
    refine ⟨[.bare .alternationStart 0 0 g], [.bare .alternationEnd 0 0 g], ?_, hmargin.symm, hmargin.symm,
      rfl, rfl, ?_, ?_⟩
    · simp [linkedBody, wrap, hbarred]
    · simp [hmargin, Node.depthFrom, Node.depthAfter, Node.bare]
    · simp [hmargin, Node.nextBranch?, Node.bare]
  · have hmargin : o.margin = 0 := by simp [margin, hbarred]
    refine ⟨[], [], ?_, hmargin.symm, hmargin.symm, rfl, rfl, ?_, ?_⟩
    · simp [linkedBody, wrap, hbarred]
    · simp [hmargin, Node.depthFrom]
    · simp [hmargin]

/-- What starts with a node that bears a state, as a list. -/
theorem exists_linked_of_leads {o : Outline} (h : o.leads = true) (f g : Option Nat) (i : Nat) :
    ∃ node nodes, o.linked f g i = node :: nodes ∧ node.kind.bearsState = true := by
  cases o with
  | nil => cases h
  | bar rest => cases h
  | leaf kind hleaf rest => exact ⟨_, _, rfl, (congrArg NodeKind.bearsState (kind_leaf ..)).trans h⟩
  | group inner rest => exact ⟨_, _, rfl, rfl⟩

/-! ## Quantifiers -/

/-- What the first node asks for, if it is a quantifier after `atom`. -/
def repeating (o : Outline) (atom : Option Nat) : List (Nat × Repetition) :=
  (atom.bind fun x => o.quantifier?.map (x, ·)).toList

/-- The repetitions that the nodes ask for. A quantifier that comes first is
left out. -/
def repetitions : Outline → (i : Nat) → List (Nat × Repetition)
  | nil, _ => []
  | leaf kind _ rest, i =>
    rest.repeating (if kind.bearsState then some i else none) ++ rest.repetitions (i + 1)
  | bar rest, i => rest.repetitions (i + 1)
  | group inner rest, i =>
    inner.repetitions (i + 1 + inner.margin) ++
      (rest.repeating (some i) ++ rest.repetitions (i + 1 + inner.span + 1))

@[simp] theorem repeating_none (o : Outline) : o.repeating none = [] := rfl

theorem repeating_of_quantifier?_none {o : Outline} (h : o.quantifier? = none) (atom : Option Nat) :
    o.repeating atom = [] := by
  cases atom <;> simp [repeating, h]

theorem mem_repeating {o : Outline} {atom : Option Nat} {x : Nat × Repetition} :
    x ∈ o.repeating atom ↔ atom = some x.1 ∧ o.quantifier? = some x.2 := by
  obtain ⟨key, r⟩ := x
  cases atom with
  | none => simp
  | some y => simp [repeating, Option.map_eq_some_iff, and_comm]

theorem mem_repetitions {o : Outline} {x : Nat × Repetition} (h : x ∈ o.repetitions i) :
    i ≤ x.1 ∧ x.1 < i + o.length := by
  induction o generalizing i with
  | nil => cases h
  | leaf kind hleaf rest ih =>
    simp only [repetitions, List.mem_append, mem_repeating, length] at h ⊢
    rcases h with ⟨hkey, -⟩ | h
    · split at hkey
      · obtain rfl := Option.some.inj hkey
        omega
      · cases hkey
    · have := ih h
      omega
  | bar rest ih =>
    have := ih h
    simp only [length]
    omega
  | group inner rest ihInner ihRest =>
    simp only [repetitions, List.mem_append, mem_repeating, length_group, span] at h ⊢
    rcases h with h | ⟨hkey, -⟩ | h
    · have := ihInner h
      omega
    · obtain rfl := Option.some.inj hkey
      omega
    · have := ihRest h
      omega

theorem quantified_body_of {o : Outline}
    (h : ∀ i atom later, ∃ atom', Node.quantified i atom (o.linked f g i ++ later) =
      o.repeating atom ++ (o.repetitions i ++ Node.quantified (i + o.length) atom' later))
    (i : Nat) {atom : Option Nat} (hfirst : o.repeating atom = []) (later : List Node) :
    ∃ atom', Node.quantified i atom (o.linkedBody f g i ++ later) =
      o.repetitions (i + o.margin) ++ Node.quantified (i + o.span) atom' later := by
  by_cases hbarred : o.barred = true
  · obtain ⟨atom', hnodes⟩ := h (i + 1) atom (.bare .alternationEnd 0 0 g :: later)
    have hplace : i + o.span = i + 1 + o.length + 1 := by
      simp only [span, margin, hbarred, if_true]
      omega
    have hlinked : o.linkedBody f g i ++ later = .bare .alternationStart 0 0 g ::
        (o.linked f g (i + 1) ++ .bare .alternationEnd 0 0 g :: later) := by
      simp [linkedBody, wrap, margin, hbarred]
    have hmargin : o.margin = 1 := by simp [margin, hbarred]
    refine ⟨atom', ?_⟩
    rw [hlinked, hplace, hmargin]
    rw [hfirst, List.nil_append] at hnodes
    exact hnodes
  · obtain ⟨atom', hnodes⟩ := h i atom later
    have hlinked : o.linkedBody f g i = o.linked f g i := by simp [linkedBody, wrap, margin, hbarred]
    have hmargin : o.margin = 0 := by simp [margin, hbarred]
    refine ⟨atom', ?_⟩
    rw [hlinked, span, hmargin]
    rwa [hfirst, List.nil_append] at hnodes

/-- **The quantifiers of a sound outline repeat what is right before them.** -/
theorem quantified_linked {o : Outline} (h : o.Sound) (f g : Option Nat) (i : Nat) (atom : Option Nat)
    (later : List Node) :
    ∃ atom', Node.quantified i atom (o.linked f g i ++ later) =
      o.repeating atom ++ (o.repetitions i ++ Node.quantified (i + o.length) atom' later) := by
  induction o generalizing f g i atom later with
  | nil =>
    refine ⟨atom, ?_⟩
    rw [repeating_of_quantifier?_none rfl]
    rfl
  | leaf kind hleaf rest ih =>
    obtain ⟨hmeet, hrest⟩ := h
    have hplace : i + (leaf kind hleaf rest).length = i + 1 + rest.length := by
      simp only [length]
      omega
    rw [linked, List.cons_append, hplace]
    generalize hnode : (if kind.bearsState then linkedNode kind (rest.entryAt f (i + 1)) none g (!rest.opens)
      else Node.bare kind 0 0 g) = node
    have hkind : node.kind = kind := by rw [← hnode, kind_leaf]
    by_cases hbears : kind.bearsState = true
    · obtain ⟨atom', hlater⟩ := ih hrest f g (i + 1) (some i) later
      have hnot : (leaf kind hleaf rest).quantifier? = none := quantifier?_of_leads hbears
      refine ⟨atom', ?_⟩
      rw [Node.quantified_cons_of_bears (by rwa [hkind]), hlater, repeating_of_quantifier?_none hnot,
        repetitions, if_pos hbears, List.nil_append, List.append_assoc]
    · obtain ⟨atom', hlater⟩ := ih hrest f g (i + 1) atom later
      -- Only what bears a state could be repeated here.
      have hnone : rest.quantifier? = none := by
        by_contra hsome
        exact hbears (NodeKind.bearsState_of_isRepeatable hleaf (hmeet (Option.isSome_iff_ne_none.2 hsome)))
      refine ⟨atom', ?_⟩
      rw [Node.quantified_cons_of_idle (by simpa [hkind] using hbears) (by simp [hkind, hleaf]), hlater,
        repeating_of_quantifier?_none hnone, repetitions, if_neg hbears, repeating_none, List.nil_append,
        List.nil_append, hkind]
      rfl
  | bar rest ih =>
    obtain ⟨hleads, hrest⟩ := h
    obtain ⟨atom', hlater⟩ := ih hrest f g (i + 1) atom later
    have hplace : i + (bar rest).length = i + 1 + rest.length := by
      simp only [length]
      omega
    rw [repeating_of_quantifier?_none (quantifier?_of_leads hleads)] at hlater
    refine ⟨atom', ?_⟩
    rw [repeating_of_quantifier?_none rfl, hplace]
    exact hlater
  | group inner rest ihInner ihRest =>
    obtain ⟨hleads, hinner, hrest⟩ := h
    obtain ⟨after, hafter⟩ : ∃ after, after = rest.entryAt f (i + 1 + inner.span + 1) := ⟨_, rfl⟩
    have hfirst : inner.repeating (some i) = [] :=
      repeating_of_quantifier?_none (quantifier?_of_leads hleads) (some i)
    obtain ⟨atom', hbody⟩ := quantified_body_of (ihInner hinner after (some i)) (i + 1) hfirst
      (.bare (.groupClose i) 0 0 g :: (rest.linked f g (i + 1 + inner.span + 1) ++ later))
    obtain ⟨atom'', hlater⟩ := ihRest hrest f g (i + 1 + inner.span + 1) (some i) later
    have hplace : i + (group inner rest).length = i + 1 + inner.span + 1 + rest.length := by
      rw [length_group]
      omega
    refine ⟨atom'', ?_⟩
    rw [linked_group, ← hafter, List.cons_append, List.append_assoc, List.cons_append,
      Node.quantified_cons_of_bears rfl, hbody, repeating_of_quantifier?_none rfl, hplace, repetitions]
    show _ ++ Node.quantified (i + 1 + inner.span + 1) (some i) _ = _
    rw [hlater]
    simp

end Outline

end RegexAutomaton
