/-
Where matching goes on, found by walking to the right.

Nodes are linked in one walk from right to left. Seen from a node, matching goes
on with the first node on the right that bears a state, where a bar is followed
by what comes after its alternation (`Walk`). Both agree for every node of a
pattern, and for the end of every group (`walk_iff_of_parse`): in an outline the
walk to the right finds the entry of a body from any place in it, and its way
past the bars is known because bars directly in a body lie at its level.
-/
import RegexAutomaton.Proofs.FailLinks
import RegexAutomaton.Proofs.GroupSpans

namespace RegexAutomaton

namespace Node

/-- Walking to the right from the node at an index finds a node that bears a state,
or none before the nodes end. At a bar the walk jumps to the end of its
alternation. -/
inductive Walk (nodes : List Node) : Nat → Option Nat → Prop
  | atEnd {i : Nat} (h : kindAt? nodes i = none) : Walk nodes i none
  | found {i : Nat} {kind : NodeKind} (h : kindAt? nodes i = some kind) (hbears : kind.bearsState = true) :
      Walk nodes i (some i)
  | jump {i a e : Nat} {r : Option Nat} (halt : Alternation nodes a e) (h : DirectBar nodes a e i)
      (later : Walk nodes e r) : Walk nodes i r
  | pass {i : Nat} {kind : NodeKind} {r : Option Nat} (h : kindAt? nodes i = some kind)
      (hidle : kind.bearsState = false) (hbar : kind ≠ .bar) (later : Walk nodes (i + 1) r) : Walk nodes i r

/-- A node with a given index goes on where the walk to the right leads. -/
structure GoesRight (nodes : List Node) (index : Nat) (node : Node) : Prop where
  next : node.kind.bearsState = true → Walk nodes (index + 1) node.next
  idle : node.kind.bearsState = false → node.next = none
  close : node.kind = .groupOpen → ∃ c, Group nodes index c ∧ Walk nodes (c + 1) node.close
  other : node.kind ≠ .groupOpen → node.close = none

variable {nodes nodes' part later : List Node} {node : Node} {r r' : Option Nat} {a a' b e e' i k : Nat}

/-- A bar belongs to one alternation. -/
theorem DirectBar.eq (h : DirectBar nodes a e b) (halt : Alternation nodes a e) (h' : DirectBar nodes a' e' b)
    (halt' : Alternation nodes a' e') : e = e' := by
  obtain rfl : a = a' := Nat.le_antisymm (h'.innermost a e halt h.inside.1 h.inside.2)
    (h.innermost a' e' halt' h'.inside.1 h'.inside.2)
  exact Option.some.inj (halt.2.symm.trans halt'.2)

/-- The walk finds one node at most. -/
theorem Walk.eq (h : Walk nodes i r) (h' : Walk nodes i r') : r = r' := by
  induction h with
  | atEnd hnone =>
    cases h' with
    | atEnd => rfl
    | found hkind | pass hkind => cases hnone.symm.trans hkind
    | jump _ hdirect => cases hnone.symm.trans hdirect.bar
  | found hkind hbears =>
    cases h' with
    | atEnd hnone => cases hnone.symm.trans hkind
    | found => rfl
    | jump _ hdirect =>
      obtain rfl := Option.some.inj (hkind.symm.trans hdirect.bar)
      cases hbears
    | pass hkind' hidle =>
      obtain rfl := Option.some.inj (hkind.symm.trans hkind')
      exact absurd hbears (by rw [hidle]; exact Bool.false_ne_true)
  | jump halt hdirect _ ih =>
    cases h' with
    | atEnd hnone => cases hnone.symm.trans hdirect.bar
    | found hkind hbears =>
      obtain rfl := Option.some.inj (hkind.symm.trans hdirect.bar)
      cases hbears
    | jump halt' hdirect' later =>
      obtain rfl := hdirect.eq halt hdirect' halt'
      exact ih later
    | pass hkind _ hbar => exact absurd (Option.some.inj (hkind.symm.trans hdirect.bar)) hbar
  | pass hkind hidle hbar _ ih =>
    cases h' with
    | atEnd hnone => cases hnone.symm.trans hkind
    | found hkind' hbears =>
      obtain rfl := Option.some.inj (hkind.symm.trans hkind')
      exact absurd hbears (by rw [hidle]; exact Bool.false_ne_true)
    | jump _ hdirect => exact absurd (Option.some.inj (hkind.symm.trans hdirect.bar)) hbar
    | pass _ _ _ later => exact ih later

/-! ## Nodes of the same kinds -/

theorem closing?_congr (h : nodes.map (·.kind) = nodes'.map (·.kind)) (depth index : Nat) :
    closing? depth index nodes = closing? depth index nodes' := by
  induction nodes generalizing nodes' depth index with
  | nil =>
    obtain rfl := List.map_eq_nil_iff.1 h.symm
    rfl
  | cons node nodes ih =>
    cases nodes' with
    | nil => cases h
    | cons node' nodes' =>
      obtain ⟨hkind, hrest⟩ := List.cons_eq_cons.1 h
      simp only at hkind
      simp only [closing?, hkind, ih hrest]

theorem alternation_congr (h : nodes.map (·.kind) = nodes'.map (·.kind)) :
    Alternation nodes a e ↔ Alternation nodes' a e := by
  have hdrop : (nodes.drop (a + 1)).map (·.kind) = (nodes'.drop (a + 1)).map (·.kind) := by
    rw [List.map_drop, h, List.map_drop]
  rw [Alternation, kindAt?_congr h, closing?_congr hdrop, Alternation]

theorem Walk.congr (h : nodes.map (·.kind) = nodes'.map (·.kind)) (hwalk : Walk nodes i r) : Walk nodes' i r := by
  induction hwalk with
  | atEnd hnone => exact .atEnd (by rwa [← kindAt?_congr h])
  | found hkind hbears => exact .found (by rwa [← kindAt?_congr h]) hbears
  | jump halt hdirect _ ih =>
    refine .jump ((alternation_congr h).1 halt) ⟨?_, hdirect.inside, fun a' e' halt' => ?_⟩ ih
    · rw [← kindAt?_congr h]
      exact hdirect.bar
    · exact hdirect.innermost a' e' ((alternation_congr h).2 halt')
  | pass hkind hidle hbar _ ih => exact .pass (by rwa [← kindAt?_congr h]) hidle hbar ih

/-! ## Levels in a part of a list -/

theorem level_add_of_drop (h : nodes.drop i = part ++ later) (hk : k ≤ part.length) :
    level nodes (i + k) = level nodes i + level part k := by
  have hdrop := level_drop nodes i k
  rw [h, level_append, Nat.sub_eq_zero_of_le hk, level_zero] at hdrop
  omega

/-- The node at `i` lies at the level of a body that starts at `first`, which the
nodes from there on do not go below. -/
structure AtLevel (nodes : List Node) (first i : Nat) : Prop where
  le : first ≤ i
  level : level nodes i = level nodes first
  low : ∀ m, first ≤ m → m ≤ i → Node.level nodes first ≤ Node.level nodes m

theorem AtLevel.self (nodes : List Node) (first : Nat) : AtLevel nodes first first :=
  ⟨Nat.le_refl _, rfl, fun _ hm hle => Nat.le_antisymm hle hm ▸ Int.le_refl _⟩

/-- A balanced part leads back to the level. -/
theorem AtLevel.skip {first : Nat} (h : AtLevel nodes first i) (part : List Node) (hpart : Balanced part)
    (hdrop : nodes.drop i = part ++ later) : AtLevel nodes first (i + part.length) := by
  refine ⟨Nat.le_add_right_of_le h.le, ?_, fun m hm hle => ?_⟩
  · rw [level_add_of_drop hdrop (Nat.le_refl _), level_length, hpart.settled, h.level, Int.add_zero]
  · by_cases hmi : m ≤ i
    · exact h.low m hm hmi
    · obtain ⟨k, rfl⟩ := Nat.exists_eq_add_of_lt (Nat.lt_of_not_le hmi)
      rw [Nat.add_assoc, level_add_of_drop hdrop (by omega), h.level]
      have := hpart.sane (k + 1)
      omega

/-- A bar at the level of the body of an alternation belongs to the alternation. -/
theorem AtLevel.directBar (h : AtLevel nodes (a + 1) b) (hbar : kindAt? nodes b = some .bar) (hlt : b < e) :
    DirectBar nodes a e b := by
  refine ⟨hbar, ⟨h.le, hlt⟩, fun a' e' halt ha' he' => ?_⟩
  by_contra hlater
  have habove := (alternation_iff.1 halt).2.2.2.2 b ha' (Nat.le_of_lt he')
  have hlow := h.low a' (Nat.lt_of_not_le hlater) (Nat.le_of_lt ha')
  rw [h.level] at habove
  omega

/-- An alternation around a balanced part. -/
theorem alternation_of_balanced {start finish : Node} (hpart : Balanced part) (hstart : start.kind = .alternationStart)
    (hfinish : finish.kind = .alternationEnd) (hdrop : nodes.drop a = start :: (part ++ finish :: later)) :
    Alternation nodes a (a + 1 + part.length) := by
  have hdelta : start.delta = 1 := by rw [delta, hstart]
  have hdelta' : finish.delta = -1 := by rw [delta, hfinish]
  have hinner := drop_succ_of_drop hdrop
  have hend := drop_add_of_drop hinner
  have hkindAt : kindAt? nodes a = some .alternationStart := by
    rw [kindAt?, getElem?_of_drop hdrop, Option.map_some, hstart]
  have hup := level_start hkindAt
  have hlevel {k : Nat} (hk : k ≤ part.length) : level nodes (a + 1 + k) = level nodes a + 1 + level part k := by
    rw [level_add_of_drop hinner hk, hup]
  refine alternation_iff.2 ⟨hkindAt, by omega, (List.getElem?_eq_some_iff.1 (getElem?_of_drop hend)).1, ?_, ?_⟩
  · rw [level_succ (getElem?_of_drop hend), hlevel (Nat.le_refl _), level_length, hpart.settled, hdelta']
    omega
  · intro m hm hle
    obtain ⟨k, rfl⟩ := Nat.exists_eq_add_of_lt hm
    rw [show a + k + 1 = a + 1 + k by omega, hlevel (by omega)]
    have := hpart.sane k
    omega

end Node

/-! ## Walking through an outline -/

namespace Outline

open Node

variable {o : Outline} {nodes later : List Node} {f g : Option Nat} {i : Nat}

theorem map_kind_wrap (barred : Bool) (g g' : Option Nat) {nodes nodes' : List Node}
    (h : nodes.map (·.kind) = nodes'.map (·.kind)) :
    (wrap barred g nodes).map (·.kind) = (wrap barred g' nodes').map (·.kind) := by
  unfold wrap
  split
  · simp [Node.bare, h]
  · exact h

theorem map_kind_linked (o : Outline) (f g : Option Nat) (i : Nat) :
    (o.linked f g i).map (·.kind) = (o.nodes g i).map (·.kind) := by
  induction o generalizing f g i with
  | nil => rfl
  | leaf kind hleaf rest ih =>
    rw [linked, nodes, List.map_cons, List.map_cons, ih, kind_leaf]
    rfl
  | bar rest ih => rw [linked, nodes, List.map_cons, List.map_cons, ih]
  | group inner rest ihInner ihRest =>
    rw [linked, nodes, List.map_cons, List.map_cons, List.map_append, List.map_append, List.map_cons, List.map_cons,
      map_kind_wrap inner.barred (some i) (some i) (ihInner ..), ihRest]
    rfl

theorem map_kind_linkedBody (o : Outline) (f g : Option Nat) (i : Nat) :
    (o.linkedBody f g i).map (·.kind) = (o.body g i).map (·.kind) :=
  map_kind_wrap o.barred g g (o.map_kind_linked f g _)

theorem balanced_linkedBody (o : Outline) (f g : Option Nat) (i : Nat) : Balanced (o.linkedBody f g i) :=
  balanced_wrap g (o.balanced_linked f g _)

/-- What lies around an outline whose first node has the index `i`: behind it
matching goes on with `f`, and if it has a bar, so it does behind its alternation. -/
structure Ahead (nodes : List Node) (o : Outline) (f : Option Nat) (i : Nat) : Prop where
  follow : Walk nodes (i + o.length) f
  alternation : o.barred = true → ∃ a e, Alternation nodes a e ∧ Walk nodes e f ∧ AtLevel nodes (a + 1) i ∧
    i + o.length ≤ e

/-- What lies around the outline behind some nodes of the body. -/
theorem Ahead.skip {rest : Outline} (h : Ahead nodes o f i) (part : List Node) (hpart : Balanced part)
    (hdrop : nodes.drop i = part ++ later) (hlength : i + o.length = i + part.length + rest.length)
    (hbarred : rest.barred = true → o.barred = true) : Ahead nodes rest f (i + part.length) := by
  refine ⟨hlength ▸ h.follow, fun hrest => ?_⟩
  obtain ⟨a, e, halt, hwalk, hlevel, hle⟩ := h.alternation (hbarred hrest)
  exact ⟨a, e, halt, hwalk, hlevel.skip part hpart hdrop, hlength ▸ hle⟩

theorem goesRight_bare {kind : NodeKind} (hidle : kind.bearsState = false) (g : Option Nat) (k : Nat) :
    GoesRight nodes k (.bare kind 0 0 g) where
  next hbears := absurd (hbears.symm.trans hidle) (by decide)
  idle _ := rfl
  close hopen := by
    rw [show kind = .groupOpen from hopen] at hidle
    cases hidle
  other _ := rfl

theorem kindAt?_of_getElem? {k : Nat} {node : Node} (h : nodes[k]? = some node) : kindAt? nodes k = some node.kind := by
  rw [kindAt?, h, Option.map_some]

/-- A whole body, given what the walk does in it between the ends of its alternation. -/
theorem walk_body_of
    (h : ∀ i later, nodes.drop i = o.linked f g i ++ later → Ahead nodes o f i →
      Walk nodes i (o.entryAt f i) ∧ Stretch nodes (GoesRight nodes) i o.length)
    (hdrop : nodes.drop i = o.linkedBody f g i ++ later) (hfollow : Walk nodes (i + o.span) f) :
    Walk nodes i (o.entryAt f (i + o.margin)) ∧ Stretch nodes (GoesRight nodes) i o.span := by
  by_cases hbarred : o.barred = true
  · have hmargin : o.margin = 1 := if_pos hbarred
    have hbody : o.linkedBody f g i = .bare .alternationStart 0 0 g ::
        (o.linked f g (i + 1) ++ [.bare .alternationEnd 0 0 g]) := by simp [linkedBody, wrap, margin, hbarred]
    have hspan : o.span = o.length + (0 + 1) + 1 := by
      rw [span, hmargin]
    rw [hbody, List.cons_append, List.append_assoc, List.singleton_append] at hdrop
    have hinner := drop_succ_of_drop hdrop
    have hend := drop_add_of_drop hinner
    have halt := alternation_of_balanced (o.balanced_linked f g _) rfl rfl hdrop
    rw [length_linked] at hend halt
    have hlast : Walk nodes (i + 1 + o.length) f := by
      refine .pass (kindAt?_of_getElem? (getElem?_of_drop hend)) rfl (fun h => by cases h) ?_
      rwa [show i + 1 + o.length + 1 = i + o.span by omega]
    have hahead : Ahead nodes o f (i + 1) :=
      ⟨hlast, fun _ => ⟨i, i + 1 + o.length, halt, hlast, .self nodes (i + 1), Nat.le_refl _⟩⟩
    obtain ⟨hwalk, hstretch⟩ := h (i + 1) _ hinner hahead
    rw [hmargin, hspan]
    refine ⟨.pass (kindAt?_of_getElem? (getElem?_of_drop hdrop)) rfl (fun h => by cases h) hwalk, ?_⟩
    refine .cons (getElem?_of_drop hdrop) (goesRight_bare rfl g _) (hstretch.append ?_)
    exact .cons (getElem?_of_drop hend) (goesRight_bare rfl g _) (stretch_nil _ _ _)
  · have hmargin : o.margin = 0 := if_neg hbarred
    have hbody : o.linkedBody f g i = o.linked f g i := by simp [linkedBody, wrap, margin, hbarred]
    have hspan : o.span = o.length := by simp [span, hmargin]
    rw [hbody] at hdrop
    rw [hspan] at hfollow ⊢
    rw [hmargin]
    exact h i later hdrop ⟨hfollow, fun hb => absurd hb hbarred⟩

/-- What lies around the outline behind a group. -/
theorem Ahead.behind {inner rest : Outline} {after : Option Nat} {start : Node} (h : Ahead nodes (group inner rest) f i)
    (hstart : start.delta = 0)
    (hdrop : nodes.drop i = start ::
      (inner.linkedBody after (some i) (i + 1) ++ .bare (.groupClose i) 0 0 g :: later)) :
    Ahead nodes rest f (i + 1 + inner.span + 1) := by
  have hwhole : Balanced (start :: (inner.linkedBody after (some i) (i + 1) ++ [.bare (.groupClose i) 0 0 g])) :=
    ((balanced_linkedBody ..).append (balanced_nil.cons rfl)).cons hstart
  have hparts : nodes.drop i =
      start :: (inner.linkedBody after (some i) (i + 1) ++ [.bare (.groupClose i) 0 0 g]) ++ later := by
    rw [hdrop, List.cons_append, List.append_assoc, List.singleton_append]
  have hskip : Ahead nodes rest f _ := h.skip _ hwhole hparts (by
    rw [length_group, List.length_cons, List.length_append, length_linkedBody, List.length_singleton]
    omega) id
  rwa [List.length_cons, List.length_append, length_linkedBody, List.length_singleton,
    show i + (inner.span + 1 + 1) = i + 1 + inner.span + 1 by omega] at hskip

/-- A group ends where its body does. -/
theorem group_of_linkedBody {inner : Outline} {after : Option Nat} (hopen : kindAt? nodes i = some .groupOpen)
    (hbody : nodes.drop (i + 1) =
      inner.linkedBody after (some i) (i + 1) ++ .bare (.groupClose i) 0 0 g :: later) :
    Group nodes i (i + 1 + inner.span) := by
  have hend := drop_add_of_drop hbody
  rw [length_linkedBody] at hend
  refine ⟨hopen, ?_⟩
  have hkinds := congrArg (· ++ (nodes.drop (i + 1 + inner.span)).map (·.kind))
    (inner.map_kind_linkedBody after (some i) (i + 1))
  simp only [← List.map_append] at hkinds
  rw [hbody, ← hend, groupEnd?_congr hkinds, groupEnd?_body, hend, groupEnd?_close rfl]

/-- **The walk to the right finds the entry of an outline**, and the links of its
nodes lead where the walk does. -/
theorem walk_linked (hdrop : nodes.drop i = o.linked f g i ++ later) (h : Ahead nodes o f i) :
    Walk nodes i (o.entryAt f i) ∧ Stretch nodes (GoesRight nodes) i o.length := by
  induction o generalizing f g i later with
  | nil => exact ⟨h.follow, stretch_nil _ _ _⟩
  | leaf kind hleaf rest ih =>
    have hnode := getElem?_of_drop hdrop
    have hkind := (kindAt?_of_getElem? hnode).trans (congrArg some (kind_leaf ..))
    have hrest := drop_succ_of_drop hdrop
    have hahead : Ahead nodes rest f (i + 1) := by
      refine h.skip [_] (balanced_nil.cons (delta_of_isLeaf ?_)) hdrop ?_ id
      · rw [kind_leaf, hleaf]
      · rw [length, List.length_singleton]
        omega
    obtain ⟨hwalk, hstretch⟩ := ih hrest hahead
    refine ⟨?_, .cons hnode ?_ hstretch⟩
    · rw [entryAt]
      split
      · next hbears => exact .found hkind hbears
      · next hidle => exact .pass hkind (Bool.eq_false_iff.2 hidle) (ne_of_isLeaf hleaf).2.2 hwalk
    · split
      · next hbears =>
        refine ⟨fun _ => hwalk, fun hidle => ?_, fun hopen => ?_, fun _ => rfl⟩
        · exact absurd (hbears.symm.trans hidle) (by decide)
        · rw [show kind = .groupOpen from hopen] at hleaf
          cases hleaf
      · next hidle => exact goesRight_bare (Bool.eq_false_iff.2 hidle) g i
  | bar rest ih =>
    have hnode := getElem?_of_drop hdrop
    have hlength : (bar rest).length = rest.length + 1 := rfl
    have hahead : Ahead nodes rest f (i + 1) :=
      h.skip [_] (balanced_nil.cons rfl) hdrop (by rw [hlength, List.length_singleton]; omega) fun _ => rfl
    obtain ⟨a, e, halt, hwalk, hlevel, hle⟩ := h.alternation rfl
    refine ⟨.jump halt (hlevel.directBar (kindAt?_of_getElem? hnode) (by omega)) hwalk, ?_⟩
    exact .cons hnode (goesRight_bare rfl g i) (ih (drop_succ_of_drop hdrop) hahead).2
  | group inner rest ihInner ihRest =>
    obtain ⟨after, hafter⟩ : ∃ after, after = rest.entryAt f (i + 1 + inner.span + 1) := ⟨_, rfl⟩
    rw [linked_group, List.cons_append, List.append_assoc, List.cons_append, ← hafter] at hdrop
    have hnode := getElem?_of_drop hdrop
    have hopen := kindAt?_of_getElem? hnode
    have hbody := drop_succ_of_drop hdrop
    have hend := drop_add_of_drop hbody
    rw [length_linkedBody] at hend
    have hlength : (group inner rest).length = inner.span + (rest.length + 1) + 1 := by
      rw [length_group]
      omega
    -- The body goes on with what is behind the group, so that comes first.
    have hahead := h.behind rfl hdrop
    obtain ⟨hrestWalk, hrestStretch⟩ := ihRest (drop_succ_of_drop hend) hahead
    rw [← hafter] at hrestWalk
    have hfollow : Walk nodes (i + 1 + inner.span) after :=
      .pass (kindAt?_of_getElem? (getElem?_of_drop hend)) rfl (fun h => by cases h) hrestWalk
    obtain ⟨hinnerWalk, hinnerStretch⟩ := walk_body_of (fun _ _ hdrop h => ihInner hdrop h) hbody hfollow
    have hgroup := group_of_linkedBody hopen hbody
    rw [hlength]
    refine ⟨.found hopen rfl, .cons hnode ⟨fun _ => hinnerWalk, fun h => (by cases h), fun _ => ?_, fun hne => ?_⟩ ?_⟩
    · exact ⟨_, hgroup, hrestWalk⟩
    · exact absurd rfl hne
    · exact hinnerStretch.append (.cons (getElem?_of_drop hend) (goesRight_bare rfl g _) hrestStretch)

/-- **The links of all nodes of an outline lead where the walk to the right does.** -/
theorem goesRight_linkNodes (o : Outline) :
    Stretch (linkNodes o.list) (GoesRight (linkNodes o.list)) 0 (linkNodes o.list).length := by
  have hlist := o.linkNodes_list
  have hdrop : (linkNodes o.list).drop 0 = o.linkedBody none none 0 ++ sentinels := hlist
  have hend := drop_add_of_drop hdrop
  rw [length_linkedBody, Nat.zero_add] at hend
  have hend' := drop_succ_of_drop hend
  have hlength : (linkNodes o.list).length = o.span + (0 + 1 + 1) := by
    rw [hlist, List.length_append, length_linkedBody]
    rfl
  have hend₂ : kindAt? (linkNodes o.list) (o.span + 1 + 1) = none := by
    rw [kindAt?, List.getElem?_eq_none (by omega)]
    rfl
  have hfollow : Walk (linkNodes o.list) (0 + o.span) none := by
    rw [Nat.zero_add]
    exact .pass (kindAt?_of_getElem? (getElem?_of_drop hend)) rfl (fun h => by cases h)
      (.pass (kindAt?_of_getElem? (getElem?_of_drop hend')) rfl (fun h => by cases h) (.atEnd hend₂))
  obtain ⟨-, hstretch⟩ := walk_body_of (fun _ _ hdrop h => walk_linked hdrop h) hdrop hfollow
  rw [hlength]
  refine hstretch.append ?_
  rw [Nat.zero_add]
  exact .cons (getElem?_of_drop hend) (goesRight_bare rfl none _)
    (.cons (getElem?_of_drop hend') (goesRight_bare rfl none _) (stretch_nil _ _ _))

end Outline

namespace NodeList

variable {encoding : Encoding} {pattern : List Char} {options : Options} {list : NodeList}

theorem goesRight_of_parse (h : parse encoding pattern options = .ok list) {i : Nat} {node : Node}
    (hnode : list.nodes[i]? = some node) : node.GoesRight list.nodes i := by
  obtain ⟨p, -, -, rfl⟩ := parse_eq_ok_iff.1 h
  have hplaceless := placeless_after p pattern.length options
  generalize ((ofItems (p.body 0 pattern.length) pattern.length).after options.passes).nodes = nodes at *
  have hkinds : (linkNodes (p.outline.rewritten options).list).map (·.kind) = nodes.map (·.kind) := by
    rw [← hplaceless, List.map_map]
    rfl
  have hlength : (linkNodes (p.outline.rewritten options).list).length = nodes.length := by
    rw [← hplaceless, List.length_map]
  obtain ⟨node', hnode', hnext, hidle, hclose, hother⟩ := (p.outline.rewritten options).goesRight_linkNodes i
    (Nat.zero_le i) (by rw [hlength, Nat.zero_add]; exact (List.getElem?_eq_some_iff.1 hnode).1)
  rw [← hplaceless, List.getElem?_map, hnode] at hnode'
  obtain rfl := Option.some.inj hnode'
  refine ⟨fun hbears => (hnext hbears).congr hkinds, hidle, fun hopen => ?_, hother⟩
  obtain ⟨c, hgroup, hwalk⟩ := hclose hopen
  exact ⟨c, (Node.group_congr hkinds).1 hgroup, hwalk.congr hkinds⟩

/-- **Every node of a pattern is linked to where the walk to the right leads**: a
node that bears a state to what comes after it, and the start of a group also to
what comes after the end of the group. Other nodes have no links. -/
theorem walk_iff_of_parse (h : parse encoding pattern options = .ok list) {i : Nat} {node : Node}
    (hnode : list.nodes[i]? = some node) :
    (node.kind.bearsState = true → ∀ r, Node.Walk list.nodes (i + 1) r ↔ node.next = r) ∧
      (node.kind.bearsState = false → node.next = none) ∧
      (node.kind = .groupOpen →
        ∃ c, Node.Group list.nodes i c ∧ ∀ r, Node.Walk list.nodes (c + 1) r ↔ node.close = r) ∧
      (node.kind ≠ .groupOpen → node.close = none) := by
  obtain ⟨hnext, hidle, hclose, hother⟩ := goesRight_of_parse h hnode
  refine ⟨fun hbears r => ?_, hidle, fun hopen => ?_, hother⟩
  · exact ⟨fun hwalk => (hnext hbears).eq hwalk, fun heq => heq ▸ hnext hbears⟩
  · obtain ⟨c, hgroup, hwalk⟩ := hclose hopen
    exact ⟨c, hgroup, fun r => ⟨fun hwalk' => hwalk.eq hwalk', fun heq => heq ▸ hwalk⟩⟩

/-- The inner group ends a branch of the outer one. -/
theorem walk_iff_of_parse_nested :
    ∃ list node, parse .unicode ['a', '(', 'b', '(', 'c', 'd', '|', 'e', ')', '|', 'f', ')', '*', 'g'] {} = .ok list ∧
      list.nodes[4]? = some node ∧
      (node.kind.bearsState = true → ∀ r, Node.Walk list.nodes (4 + 1) r ↔ node.next = r) ∧
      (node.kind.bearsState = false → node.next = none) ∧
      (node.kind = .groupOpen →
        ∃ c, Node.Group list.nodes 4 c ∧ ∀ r, Node.Walk list.nodes (c + 1) r ↔ node.close = r) ∧
      (node.kind ≠ .groupOpen → node.close = none) := by
  refine ⟨_, _, rfl, rfl, ?_⟩
  exact @walk_iff_of_parse .unicode ['a', '(', 'b', '(', 'c', 'd', '|', 'e', ')', '|', 'f', ')', '*', 'g'] {} _ rfl 4
    _ rfl

end NodeList

end RegexAutomaton
