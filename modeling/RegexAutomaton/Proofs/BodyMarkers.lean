/-
Markers stand around the bodies with a bar.

A body is that of a group, or the whole pattern. In the nodes of a pattern an
alternation starts right at the beginning of every body with a bar directly in
it and ends right at its end, and nowhere else (`markersMatch_of_read`). Over an
outline this says what every node is (`Outline.Part`), given where the body
around it lies (`Outline.Lies`).
-/
import Mathlib.Data.Nat.Count
import Mathlib.Data.Set.Card
import RegexAutomaton.Proofs.GroupSpans
import RegexAutomaton.Proofs.OutlineSpots
import RegexAutomaton.Proofs.Wiring

namespace RegexAutomaton

namespace Node

/-- The body of the group with the given start, or that of the whole pattern, lies
from `first` up to `last`, which is the first node behind it. -/
inductive Body (nodes : List Node) : Option Nat → (first last : Nat) → Prop
  | whole {last : Nat} (h : nodes.length = last + 2) : Body nodes none 0 last
  | group {o c : Nat} (h : Group nodes o c) : Body nodes (some o) (o + 1) c

/-- A bar stands directly in a body. -/
def HasBar (nodes : List Node) (g : Option Nat) : Prop := ∃ b, kindAt? nodes b = some .bar ∧ Innermost nodes b g

/-- The bodies with a bar directly in them. -/
def barredBodies (nodes : List Node) : Set (Option Nat) :=
  {g | (∃ first last, Body nodes g first last) ∧ HasBar nodes g}

/-- Alternations start and end where the bodies with a bar do, and nowhere else. -/
structure MarkersMatch (nodes : List Node) : Prop where
  sentinels : ∃ last, nodes.length = last + 2 ∧ kindAt? nodes last = some .sentinel ∧
    kindAt? nodes (last + 1) = some .sentinel
  body : ∀ g first last, Body nodes g first last → (HasBar nodes g ↔
    kindAt? nodes first = some .alternationStart ∧ ∃ e, e + 1 = last ∧ kindAt? nodes e = some .alternationEnd)
  start : ∀ i, kindAt? nodes i = some .alternationStart → ∃ g last, Body nodes g i last ∧ HasBar nodes g
  finish : ∀ i, kindAt? nodes i = some .alternationEnd → ∃ g first, Body nodes g first (i + 1) ∧ HasBar nodes g

variable {nodes : List Node} {g g' : Option Nat} {first first' last last' i : Nat}

theorem Body.first_eq (h : Body nodes g first last) (h' : Body nodes g first' last') : first = first' := by
  cases h with
  | whole h => cases h'; rfl
  | group h => cases h'; rfl

theorem Body.last_eq (h : Body nodes g first last) (h' : Body nodes g first' last') : last = last' := by
  cases h with
  | whole h =>
    cases h' with
    | whole h' => omega
  | group h =>
    cases h' with
    | group h' => exact h.eq h'

theorem Innermost.eq (h : Innermost nodes i g) (h' : Innermost nodes i g') : g = g' := by
  cases g with
  | none =>
    cases g' with
    | none => rfl
    | some o => exact absurd h'.1 (h o)
  | some o =>
    cases g' with
    | none => exact absurd h.1 (h' o)
    | some o' => exact congrArg some (Nat.le_antisymm (h'.2 o h.1) (h.2 o' h'.1))

end Node

namespace Outline

open Node

variable {o whole inner : Outline} {nodes later : List Node} {g : Option Nat} {first i k : Nat}

/-! ## Where bodies lie -/

theorem body_of_barred (h : o.barred = true) (g : Option Nat) (i : Nat) : o.body g i =
    .bare .alternationStart 0 0 g :: (o.nodes g (i + 1) ++ [.bare .alternationEnd 0 0 g]) := by
  simp [body, wrap, margin, h]

theorem body_of_not_barred (h : ¬ o.barred = true) (g : Option Nat) (i : Nat) : o.body g i = o.nodes g i := by
  simp [body, wrap, margin, h]

theorem span_of_barred (h : o.barred = true) : o.span = o.length + 1 + 1 := by simp [span, margin, h]

theorem span_of_not_barred (h : ¬ o.barred = true) : o.span = o.length := by simp [span, margin, h]

/-- A list of nodes has a body in it, that of a group or of the whole pattern. -/
inductive Lies (nodes : List Node) : Option Nat → (first : Nat) → Outline → Prop
  | whole {o : Outline} (h : nodes = o.list) : Lies nodes none 0 o
  | group {o : Outline} {i : Nat} {g : Option Nat} {later : List Node} (hopen : kindAt? nodes i = some .groupOpen)
      (h : nodes.drop (i + 1) = o.body (some i) (i + 1) ++ .bare (.groupClose i) 0 0 g :: later) :
      Lies nodes (some i) (i + 1) o

namespace Lies

theorem exists_drop (h : Lies nodes g first o) : ∃ node later, node.kind ≠ .alternationStart ∧
    nodes.drop first = o.body g first ++ node :: later := by
  cases h with
  | whole h => exact ⟨_, _, fun h => (by cases h), h⟩
  | group hopen h => exact ⟨_, _, fun h => (by cases h), h⟩

theorem body (h : Lies nodes g first o) : Node.Body nodes g first (first + o.span) := by
  cases h with
  | whole h =>
    rw [Nat.zero_add]
    refine .whole ?_
    rw [h, list, List.length_append, length_body]
    rfl
  | group hopen h =>
    refine .group ⟨hopen, ?_⟩
    rw [h, groupEnd?_body, groupEnd?_close rfl]

end Lies

/-! ## What the nodes of a body are -/

/-- What the node at an index is, by its kind and by the body that it is part of. -/
inductive Part (nodes : List Node) (index : Nat) (node : Node) : Prop
  | leaf (hkind : node.kind.isStructural = false)
  | bar {first : Nat} {o : Outline} (hkind : node.kind = .bar) (hlies : Lies nodes node.group first o)
      (hbarred : o.barred = true)
  | start {o : Outline} (hkind : node.kind = .alternationStart) (hlies : Lies nodes node.group index o)
      (hbarred : o.barred = true)
  | finish {first : Nat} {o : Outline} (hkind : node.kind = .alternationEnd) (hlies : Lies nodes node.group first o)
      (hbarred : o.barred = true) (hplace : first + o.span = index + 1)
  | opened {o : Outline} (hkind : node.kind = .groupOpen) (hlies : Lies nodes (some index) (index + 1) o)
  | closed {i : Nat} (hkind : node.kind = .groupClose i)

/-- A whole body, given what its nodes are between the ends of its alternation. -/
theorem parts_body_of (hlies : Lies nodes g first o)
    (h : ∀ i later, nodes.drop i = o.nodes g i ++ later → Stretch nodes (Part nodes) i o.length) :
    Stretch nodes (Part nodes) first o.span := by
  obtain ⟨node, later, -, hdrop⟩ := hlies.exists_drop
  by_cases hbarred : o.barred = true
  · rw [body_of_barred hbarred, List.cons_append, List.append_assoc] at hdrop
    have hinner := drop_succ_of_drop hdrop
    have hend := drop_add_of_drop hinner
    rw [length_nodes] at hend
    have hspan := span_of_barred hbarred
    rw [hspan]
    refine Stretch.cons (getElem?_of_drop hdrop) (.start rfl hlies hbarred) ((h _ _ hinner).append ?_)
    exact Stretch.cons (getElem?_of_drop hend) (.finish rfl hlies hbarred (by omega)) (stretch_nil _ _ _)
  · rw [body_of_not_barred hbarred] at hdrop
    rw [span_of_not_barred hbarred]
    exact h first _ hdrop

/-- **What the nodes of a body are**, from some node on. -/
theorem parts_nodes (hlies : Lies nodes g first whole) (hbarred : o.barred = true → whole.barred = true)
    (hdrop : nodes.drop i = o.nodes g i ++ later) : Stretch nodes (Part nodes) i o.length := by
  induction o generalizing g first whole i later with
  | nil => exact stretch_nil _ _ _
  | leaf kind hleaf rest ih =>
    exact .cons (getElem?_of_drop hdrop) (.leaf hleaf) (ih hlies hbarred (drop_succ_of_drop hdrop))
  | bar rest ih =>
    exact .cons (getElem?_of_drop hdrop) (.bar rfl hlies (hbarred rfl))
      (ih hlies (fun _ => hbarred rfl) (drop_succ_of_drop hdrop))
  | group inner rest ihInner ihRest =>
    rw [nodes_group, List.cons_append, List.append_assoc, List.cons_append] at hdrop
    have hbody := drop_succ_of_drop hdrop
    have hend := drop_add_of_drop hbody
    rw [length_body] at hend
    have hopen : kindAt? nodes i = some .groupOpen := by
      rw [kindAt?, getElem?_of_drop hdrop]
      rfl
    have hinner : Lies nodes (some i) (i + 1) inner := .group hopen hbody
    have hlength : (group inner rest).length = inner.span + (rest.length + 1) + 1 := by
      rw [length_group]
      omega
    rw [hlength]
    refine .cons (getElem?_of_drop hdrop) (.opened rfl hinner) (.append ?_ ?_)
    · exact parts_body_of hinner fun i later hdrop => ihInner hinner id hdrop
    · exact .cons (getElem?_of_drop hend) (.closed rfl) (ihRest hlies hbarred (drop_succ_of_drop hend))

theorem parts_list (o : Outline) : Stretch o.list (Part o.list) 0 o.list.length := by
  have hlies : Lies o.list none 0 o := .whole rfl
  have hlength : o.list.length = o.span + (0 + 1 + 1) := by
    rw [list, List.length_append, length_body]
    rfl
  have hdrop : o.list.drop (0 + o.span) = sentinels := by
    rw [Nat.zero_add, list, ← o.length_body none 0, List.drop_left]
  rw [hlength]
  refine (parts_body_of hlies fun i later hdrop => parts_nodes hlies id hdrop).append ?_
  exact .cons (getElem?_of_drop hdrop) (.leaf rfl)
    (.cons (getElem?_of_drop (drop_succ_of_drop hdrop)) (.leaf rfl) (stretch_nil _ _ _))

/-! ## The bodies with a bar -/

theorem exists_bar (hbarred : o.barred = true) (hdrop : nodes.drop i = o.nodes g i ++ later) :
    ∃ b : Nat, nodes[b]? = some (Node.bare .bar 0 0 g) := by
  induction o generalizing i with
  | nil => cases hbarred
  | leaf kind hleaf rest ih => exact ih hbarred (drop_succ_of_drop hdrop)
  | bar rest _ => exact ⟨i, getElem?_of_drop hdrop⟩
  | group inner rest _ ihRest =>
    rw [nodes_group, List.cons_append, List.append_assoc, List.cons_append] at hdrop
    have hend := drop_add_of_drop (drop_succ_of_drop hdrop)
    rw [length_body] at hend
    exact ihRest hbarred (drop_succ_of_drop hend)

namespace Lies

theorem kindAt?_first (h : Lies nodes g first o) :
    kindAt? nodes first = some .alternationStart ↔ o.barred = true := by
  constructor
  · intro hstart
    by_contra hbarred
    obtain ⟨node, later, hne, hdrop⟩ := h.exists_drop
    obtain ⟨start, hnode, hkind⟩ := exists_of_kindAt? hstart
    rw [body_of_not_barred hbarred] at hdrop
    cases o with
    | nil =>
      obtain rfl := Option.some.inj (hnode.symm.trans (getElem?_of_drop hdrop))
      exact hne hkind
    | leaf kind hleaf rest =>
      obtain rfl := Option.some.inj (hnode.symm.trans (getElem?_of_drop hdrop))
      rw [show kind = .alternationStart from hkind] at hleaf
      cases hleaf
    | bar rest => exact hbarred rfl
    | group inner rest =>
      obtain rfl := Option.some.inj (hnode.symm.trans (getElem?_of_drop hdrop))
      cases hkind
  · intro hbarred
    obtain ⟨node, later, -, hdrop⟩ := h.exists_drop
    rw [body_of_barred hbarred] at hdrop
    rw [kindAt?, getElem?_of_drop hdrop]
    rfl

theorem exists_finish (h : Lies nodes g first o) (hbarred : o.barred = true) :
    ∃ e, e + 1 = first + o.span ∧ kindAt? nodes e = some .alternationEnd := by
  obtain ⟨node, later, -, hdrop⟩ := h.exists_drop
  rw [body_of_barred hbarred, List.cons_append, List.append_assoc] at hdrop
  have hend := drop_add_of_drop (drop_succ_of_drop hdrop)
  rw [length_nodes] at hend
  refine ⟨first + 1 + o.length, ?_, ?_⟩
  · rw [span_of_barred hbarred]
    omega
  · rw [kindAt?, getElem?_of_drop hend]
    rfl

/-- A body with a bar has one that belongs to no group inside it. -/
theorem hasBar (h : Lies nodes g first o) (hmatch : GroupsMatch nodes) (hbarred : o.barred = true) :
    HasBar nodes g := by
  obtain ⟨node, later, -, hdrop⟩ := h.exists_drop
  rw [body_of_barred hbarred, List.cons_append, List.append_assoc] at hdrop
  obtain ⟨b, hb⟩ := exists_bar hbarred (drop_succ_of_drop hdrop)
  exact ⟨b, by rw [kindAt?, hb]; rfl, hmatch.innermost b _ hb⟩

end Lies

theorem exists_part (o : Outline) {kind : NodeKind} (h : kindAt? o.list k = some kind) :
    ∃ node, o.list[k]? = some node ∧ node.kind = kind ∧ Part o.list k node := by
  obtain ⟨node, hnode, hkind⟩ := exists_of_kindAt? h
  obtain ⟨node', hnode', hpart⟩ := o.parts_list k (Nat.zero_le k) (by rw [Nat.zero_add]; exact lt_length_of_kindAt? h)
  obtain rfl : node = node' := Option.some.inj (hnode.symm.trans hnode')
  exact ⟨node, hnode, hkind, hpart⟩

/-- Every body of an outline is that of an outline. -/
theorem exists_lies (o : Outline) {last : Nat} (h : Node.Body o.list g first last) : ∃ o', Lies o.list g first o' := by
  cases h with
  | whole h => exact ⟨o, .whole rfl⟩
  | group h =>
    obtain ⟨node, -, hkind, hpart⟩ := o.exists_part h.1
    cases hpart with
    | leaf hleaf =>
      rw [hkind] at hleaf
      cases hleaf
    | opened _ hlies => exact ⟨_, hlies⟩
    | bar hkind' | start hkind' | finish hkind' | closed hkind' => cases hkind.symm.trans hkind'

/-- The body that a bar stands in has a bar. -/
theorem exists_lies_of_hasBar (o : Outline) (hmatch : GroupsMatch o.list) (h : HasBar o.list g) :
    ∃ first o', Lies o.list g first o' ∧ o'.barred = true := by
  obtain ⟨b, hb, hinnermost⟩ := h
  obtain ⟨node, hnode, hkind, hpart⟩ := o.exists_part hb
  obtain rfl := hinnermost.eq (hmatch.innermost b node hnode)
  cases hpart with
  | leaf hleaf =>
    rw [hkind] at hleaf
    cases hleaf
  | bar _ hlies hbarred => exact ⟨_, _, hlies, hbarred⟩
  | start hkind' | finish hkind' | opened hkind' | closed hkind' => cases hkind.symm.trans hkind'

/-- **In the nodes of an outline markers stand around the bodies with a bar.** -/
theorem markersMatch_list (o : Outline) (hmatch : GroupsMatch o.list) : MarkersMatch o.list where
  sentinels := by
    have hlies : Lies o.list none 0 o := .whole rfl
    have hdrop : o.list.drop o.span = sentinels := by rw [list, ← o.length_body none 0, List.drop_left]
    refine ⟨o.span, ?_, ?_, ?_⟩
    · rw [list, List.length_append, length_body]
      rfl
    · rw [kindAt?, getElem?_of_drop hdrop]
      rfl
    · rw [kindAt?, getElem?_of_drop (drop_succ_of_drop hdrop)]
      rfl
  body g first last hbody := by
    constructor
    · intro hbar
      obtain ⟨first', o', hlies, hbarred⟩ := o.exists_lies_of_hasBar hmatch hbar
      obtain rfl := hbody.first_eq hlies.body
      obtain rfl := hbody.last_eq hlies.body
      exact ⟨hlies.kindAt?_first.2 hbarred, hlies.exists_finish hbarred⟩
    · rintro ⟨hstart, -⟩
      obtain ⟨o', hlies⟩ := o.exists_lies hbody
      exact hlies.hasBar hmatch (hlies.kindAt?_first.1 hstart)
  start i hi := by
    obtain ⟨node, -, hkind, hpart⟩ := o.exists_part hi
    cases hpart with
    | leaf hleaf =>
      rw [hkind] at hleaf
      cases hleaf
    | start _ hlies hbarred => exact ⟨_, _, hlies.body, hlies.hasBar hmatch hbarred⟩
    | bar hkind' | finish hkind' | opened hkind' | closed hkind' => cases hkind.symm.trans hkind'
  finish i hi := by
    obtain ⟨node, -, hkind, hpart⟩ := o.exists_part hi
    cases hpart with
    | leaf hleaf =>
      rw [hkind] at hleaf
      cases hleaf
    | finish _ hlies hbarred hplace =>
      exact ⟨_, _, hplace ▸ hlies.body, hlies.hasBar hmatch hbarred⟩
    | bar hkind' | start hkind' | opened hkind' | closed hkind' => cases hkind.symm.trans hkind'

end Outline

/-! ## Nodes of the same kinds -/

namespace Node

variable {nodes nodes' : List Node} {g : Option Nat} {o c i first last : Nat}

theorem Body.congr (h : nodes.map (·.kind) = nodes'.map (·.kind)) (hbody : Body nodes g first last) :
    Body nodes' g first last := by
  cases hbody with
  | whole hlast =>
    have hlength := congrArg List.length h
    rw [List.length_map, List.length_map] at hlength
    exact .whole (hlength ▸ hlast)
  | group hgroup => exact .group ((group_congr h).1 hgroup)

theorem hasBar_congr (h : nodes.map (·.kind) = nodes'.map (·.kind)) : HasBar nodes g ↔ HasBar nodes' g := by
  simp only [HasBar, kindAt?_congr h, innermost_congr h]

/-- Where markers stand is a matter of the kinds of the nodes. -/
theorem MarkersMatch.congr (h : nodes.map (·.kind) = nodes'.map (·.kind)) (hmarkers : MarkersMatch nodes) :
    MarkersMatch nodes' where
  sentinels := by
    obtain ⟨last, hlast, hfirst, hsecond⟩ := hmarkers.sentinels
    have hlength := congrArg List.length h
    rw [List.length_map, List.length_map] at hlength
    rw [kindAt?_congr h] at hfirst hsecond
    exact ⟨last, hlength ▸ hlast, hfirst, hsecond⟩
  body g first last hbody := by
    have := hmarkers.body g first last (hbody.congr h.symm)
    simpa only [hasBar_congr h, kindAt?_congr h] using this
  start i hi := by
    obtain ⟨g, last, hbody, hbar⟩ := hmarkers.start i ((kindAt?_congr h i).trans hi)
    exact ⟨g, last, hbody.congr h, (hasBar_congr h).1 hbar⟩
  finish i hi := by
    obtain ⟨g, first, hbody, hbar⟩ := hmarkers.finish i ((kindAt?_congr h i).trans hi)
    exact ⟨g, first, hbody.congr h, (hasBar_congr h).1 hbar⟩

/-! ## How many bodies have a bar -/

/-- The body that starts at an index. -/
def bodyAt : Nat → Option Nat
  | 0 => none
  | o + 1 => some o

theorem bodyAt_injective : Function.Injective bodyAt := by
  intro i j h
  cases i <;> cases j <;> simp_all [bodyAt]

theorem Body.bodyAt_eq (h : Body nodes g first last) : bodyAt first = g := by
  cases h <;> rfl

theorem MarkersMatch.barredBodies_eq (h : MarkersMatch nodes) :
    barredBodies nodes = bodyAt '' {i | kindAt? nodes i = some .alternationStart} := by
  ext g
  constructor
  · rintro ⟨⟨first, last, hbody⟩, hbar⟩
    exact ⟨first, ((h.body g first last hbody).1 hbar).1, hbody.bodyAt_eq⟩
  · rintro ⟨i, hi, rfl⟩
    obtain ⟨g, last, hbody, hbar⟩ := h.start i hi
    rw [hbody.bodyAt_eq]
    exact ⟨⟨i, last, hbody⟩, hbar⟩

theorem encard_kindAt? (nodes : List Node) (kind : NodeKind) :
    {i | kindAt? nodes i = some kind}.encard = nodes.countP (·.kind == kind) := by
  have hcount (k : Nat) : Nat.count (fun i => kindAt? nodes i = some kind) k =
      (nodes.take k).countP (·.kind == kind) := by
    induction k with
    | zero => rfl
    | succ k ih =>
      rw [Nat.count_succ, ih, List.take_add_one, List.countP_append, kindAt?]
      cases nodes[k]? <;> simp
  have hset : {i | kindAt? nodes i = some kind} =
      ((Finset.range nodes.length).filter fun i => kindAt? nodes i = some kind : Set Nat) := by
    ext i
    simp only [Set.mem_ofPred_eq, Finset.coe_filter, Finset.mem_range]
    exact ⟨fun hi => ⟨lt_length_of_kindAt? hi, hi⟩, And.right⟩
  rw [hset, Set.encard_coe_eq_coe_finsetCard, ← Nat.count_eq_card_filter_range, hcount, List.take_length]

theorem MarkersMatch.encard_barredBodies (h : MarkersMatch nodes) :
    (barredBodies nodes).encard = nodes.countP (·.kind == .alternationStart) := by
  rw [h.barredBodies_eq, bodyAt_injective.encard_image, encard_kindAt?]

end Node

/-! ## The nodes of a pattern -/

namespace Node

theorem ofItem_eq_alternationStart_iff (groups : List Nat) (item : Item) :
    NodeKind.ofItem groups item = .alternationStart ↔ item = .alternationStart := by
  rcases item with (a | q | _ | _ | _ | _ | _) | _ | _
  case token.atom => cases a <;> exact ⟨nofun, nofun⟩
  case alternationStart => exact ⟨fun _ => rfl, fun _ => rfl⟩
  all_goals exact ⟨nofun, nofun⟩

theorem ofItem_eq_bar_iff (groups : List Nat) (item : Item) :
    NodeKind.ofItem groups item = .bar ↔ item = .token .bar := by
  rcases item with (a | q | _ | _ | _ | _ | _) | _ | _
  case token.atom => cases a <;> exact ⟨nofun, nofun⟩
  case token.bar => exact ⟨fun _ => rfl, fun _ => rfl⟩
  all_goals exact ⟨nofun, nofun⟩

end Node

/-- The markers of a pattern are missing exactly if none of its tokens is a bar. -/
theorem Markers.ofPattern?_eq_none_iff {encoding : Encoding} {pattern : List Char} {ts : List (Spanned Token)}
    (h : (Token.read encoding).Reads 0 pattern ts) : ofPattern? pattern = none ↔ .bar ∉ ts.map (·.value) := by
  have hnesting (t : Token) : t.nesting? = some .bar ↔ t = .bar := by
    cases t <;> simp [Token.nesting?]
  have hany : (Nesting.ofPattern pattern).any (·.2 == .bar) = true ↔ .bar ∈ ts.map (·.value) := by
    rw [Nesting.ofPattern_eq h, List.any_eq_true, List.mem_map]
    constructor
    · rintro ⟨part, hpart, hbar⟩
      obtain ⟨t, ht, hmap⟩ := List.mem_filterMap.1 hpart
      obtain ⟨n, hn, rfl⟩ := Option.map_eq_some_iff.1 hmap
      obtain rfl := beq_iff_eq.1 hbar
      exact ⟨t, ht, (hnesting t.value).1 hn⟩
    · rintro ⟨t, ht, hbar⟩
      refine ⟨(t.offset, .bar), List.mem_filterMap.2 ⟨t, ht, ?_⟩, rfl⟩
      rw [(hnesting t.value).2 hbar]
      rfl
  unfold ofPattern?
  simp only
  split
  · next hbar => exact ⟨fun h => (by cases h), fun hne => absurd (hany.1 hbar) hne⟩
  · next hbar => exact ⟨fun _ hmem => hbar (hany.2 hmem), fun _ => rfl⟩

namespace NodeList

variable {encoding : Encoding} {pattern : List Char} {list : NodeList}

/-- A pattern that is read has the nodes of a phrase. -/
theorem exists_phrase_of_read (h : read encoding ((Markers.ofPattern? pattern).getD .empty) pattern = .ok list) :
    ∃ p : Phrase, (Token.read encoding).Reads 0 pattern p.tokens ∧
      list = ofItems (p.body 0 pattern.length) pattern.length := by
  obtain ⟨⟨⟩, hcheck, rfl⟩ := map_eq_ok_iff.1 h
  obtain ⟨p, hp⟩ := Grammar.exists_reads_of_check hcheck
  refine ⟨p, hp, ?_⟩
  rw [Markers.itemsOf_eq_body hp, tokens_of_reads hp]

/-- **Markers stand around the bodies with a bar**, the groups of the nodes match,
and the pattern has markers exactly if it has a bar. -/
theorem markersMatch_of_read (h : read encoding ((Markers.ofPattern? pattern).getD .empty) pattern = .ok list) :
    Node.GroupsMatch list.nodes ∧ Node.MarkersMatch list.nodes ∧
      (Node.barredBodies list.nodes).encard = list.alternations ∧
      (Markers.ofPattern? pattern = none ↔ ∀ node ∈ list.nodes, node.kind ≠ .bar) := by
  have hwired := Node.wired_of_read h
  obtain ⟨p, hp, rfl⟩ := exists_phrase_of_read h
  have hplaceless := placeless_ofItems p pattern.length
  have hkinds : p.outline.list.map (·.kind) =
      (ofItems (p.body 0 pattern.length) pattern.length).nodes.map (·.kind) := by
    rw [← hplaceless, List.map_map]
    rfl
  have houtline : Node.Wired [] 0 p.outline.list := by
    rw [← hplaceless]
    refine hwired.replaces ?_
    rw [List.forall₂_map_left_iff, List.forall₂_same]
    exact fun node _ => ⟨.inl rfl, rfl, rfl, rfl, rfl⟩
  have hmarkers := (p.outline.markersMatch_list (Node.groupsMatch_of_wired houtline)).congr hkinds
  have hcount {kind : NodeKind} {item : Item}
      (hitem : ∀ groups item', NodeKind.ofItem groups item' = kind ↔ item' = item)
      (hsentinel : NodeKind.sentinel ≠ kind) :
      (ofItems (p.body 0 pattern.length) pattern.length).nodes.countP (·.kind == kind) =
        (p.body 0 pattern.length).countP (·.value == item) := by
    show (Node.ofItems _ _ _ ++ _).countP _ = _
    rw [List.countP_append, Node.countP_ofItems hitem]
    simp [Node.bare, hsentinel]
  refine ⟨Node.groupsMatch_of_wired hwired, hmarkers, ?_, ?_⟩
  · rw [hmarkers.encard_barredBodies, hcount Node.ofItem_eq_alternationStart_iff (by decide)]
    rfl
  · have hnodes : (∀ node ∈ (ofItems (p.body 0 pattern.length) pattern.length).nodes, node.kind ≠ .bar) ↔
        ∀ item ∈ p.body 0 pattern.length, item.value ≠ .token .bar := by
      have hzero := congrArg (· = 0) (hcount Node.ofItem_eq_bar_iff (by decide))
      simpa only [List.countP_eq_zero, beq_iff_eq, eq_iff_iff] using hzero
    have htokens : (p.body 0 pattern.length).filterMap (·.value.token?) = p.tokens.map (·.value) := by
      rw [← Markers.itemsOf_eq_body hp, Markers.itemsOf, tokens_of_reads hp, Markers.tokens_weave]
    have htoken (item : Item) : item = .token .bar ↔ item.token? = some .bar := by
      cases item <;> simp [Item.token?]
    rw [Markers.ofPattern?_eq_none_iff hp, hnodes, ← htokens, List.mem_filterMap]
    simp only [ne_eq, htoken, not_exists, not_and]

/-- Escaped and bracketed symbols are no parentheses or bars. -/
theorem markersMatch_of_read_nested :
    ∃ list,
      read .unicode
        ((Markers.ofPattern? ['(', 'a', '|', '[', '|', '(', ']', ')', '\\', '|', '(', 'b', ')']).getD .empty)
        ['(', 'a', '|', '[', '|', '(', ']', ')', '\\', '|', '(', 'b', ')'] = .ok list ∧
      Node.GroupsMatch list.nodes ∧ Node.MarkersMatch list.nodes ∧
      (Node.barredBodies list.nodes).encard = list.alternations ∧
      (Markers.ofPattern? ['(', 'a', '|', '[', '|', '(', ']', ')', '\\', '|', '(', 'b', ')'] = none ↔
        ∀ node ∈ list.nodes, node.kind ≠ .bar) := by
  refine ⟨_, rfl, ?_⟩
  exact @markersMatch_of_read .unicode ['(', 'a', '|', '[', '|', '(', ']', ')', '\\', '|', '(', 'b', ')'] _ rfl

end NodeList

end RegexAutomaton
