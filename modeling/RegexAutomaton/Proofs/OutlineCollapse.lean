/-
Collapsing, on outlines.

`Outline.collapse` does to a tree what the pass does to a list
(`Outline.collapse_body`), and leaves it as sound as it was. Neither looks at
places.
-/
import RegexAutomaton.Proofs.Outline

namespace RegexAutomaton

namespace Collapse

theorem rewrite_placeless (inside : Bool) (nodes : List Node) :
    (rewrite inside (nodes.map Node.placeless)).map Node.placeless =
      (rewrite inside nodes).map Node.placeless := by
  induction nodes generalizing inside with
  | nil => cases inside <;> rfl
  | cons node rest ih =>
    cases inside with
    | true =>
      by_cases hend : node.kind = .alternationEnd <;> simp [rewrite, hend, ih] <;> simp [Node.placeless]
    | false =>
      simp only [List.map_cons, rewrite, Node.kind_placeless, choices?_map Node.kind_placeless]
      cases choices? rest with
      | none => split <;> simp_all [Node.placeless]
      | some found => split <;> simp_all [Node.placeless]

end Collapse

namespace Outline

/-- The sets of the branches of a body, if each is a single choice. -/
def choices? : Outline → Option (List CharSet)
  | leaf kind _ nil => (Collapse.choice? kind).map ([·])
  | leaf kind _ (bar rest) =>
    (Collapse.choice? kind).bind fun set => rest.choices?.map (set :: ·)
  | _ => none

/-- Some nodes that have been rewritten away. -/
def inert : Nat → Outline → Outline
  | 0, rest => rest
  | n + 1, rest => leaf .inert NodeKind.isStructural_inert (inert n rest)

/-- The set that a whole body becomes, if it is an alternation of single
choices. -/
def set? (o : Outline) : Option Outline :=
  if o.barred then
    o.choices?.map fun sets =>
      leaf (.collapsedStart (.union sets)) rfl (inert o.length (leaf .collapsedEnd rfl nil))
  else none

/-- Rewrite the alternations of single choices inside. -/
def collapse : Outline → Outline
  | nil => nil
  | leaf kind isLeaf rest => leaf kind isLeaf rest.collapse
  | bar rest => bar rest.collapse
  | group inner rest => group (inner.set?.getD inner.collapse) rest.collapse

/-- Rewrite a whole body. -/
def collapseBody (o : Outline) : Outline := o.set?.getD o.collapse

theorem nodes_inert (n : Nat) (rest : Outline) (g : Option Nat) (i : Nat) :
    (inert n rest).nodes g i = List.replicate n (.bare .inert 0 0 g) ++ rest.nodes g (i + n) := by
  induction n generalizing i with
  | zero => rfl
  | succ n ih =>
    have hplace : i + (n + 1) = i + 1 + n := by omega
    simp only [inert, nodes, ih, List.replicate_succ, List.cons_append, hplace]

@[simp] theorem length_inert (n : Nat) (rest : Outline) : (inert n rest).length = rest.length + n := by
  induction n with
  | zero => rfl
  | succ n ih => simp only [inert, length, ih, Nat.add_assoc]

@[simp] theorem barred_inert (n : Nat) (rest : Outline) : (inert n rest).barred = rest.barred := by
  induction n with
  | zero => rfl
  | succ n ih => exact ih

theorem sound_inert {rest : Outline} (h : rest.Sound) (hfirst : rest.quantifier? = none) (n : Nat) :
    (inert n rest).Sound := by
  induction n with
  | zero => exact h
  | succ n ih =>
    refine ⟨fun hquantifier => ?_, ih⟩
    cases n with
    | zero => simp [inert, hfirst] at hquantifier
    | succ n => cases hquantifier

theorem set?_of_choices? {o : Outline} {sets : List CharSet} (hbarred : o.barred = true)
    (h : o.choices? = some sets) :
    o.set? = some (leaf (.collapsedStart (.union sets)) rfl (inert o.length (leaf .collapsedEnd rfl nil))) := by
  simp [set?, hbarred, h]

/-- A body that becomes a set, written out. -/
theorem set?_eq_some {o o' : Outline} (h : o.set? = some o') :
    o.barred = true ∧ ∃ sets, o.choices? = some sets ∧
      o' = leaf (.collapsedStart (.union sets)) rfl (inert o.length (leaf .collapsedEnd rfl nil)) := by
  unfold set? at h
  split at h
  · next hbarred =>
    obtain ⟨sets, hsets, rfl⟩ := Option.map_eq_some_iff.1 h
    exact ⟨hbarred, sets, hsets, rfl⟩
  · cases h

theorem span_set {o o' : Outline} (h : o.set? = some o') : o'.span = o.span := by
  obtain ⟨hbarred, sets, -, rfl⟩ := set?_eq_some h
  simp [span, margin, length, barred, hbarred]
  omega

theorem barred_collapse (o : Outline) : o.collapse.barred = o.barred := by
  induction o with
  | nil => rfl
  | leaf kind hleaf rest ih => exact ih
  | bar rest ih => rfl
  | group inner rest _ ihRest => exact ihRest

/-- The set of a body, or else the body with others rewritten, is as long. -/
theorem span_collapseBody_of {o : Outline} (h : o.collapse.length = o.length) :
    o.collapseBody.span = o.span := by
  unfold collapseBody
  cases hset : o.set? with
  | none => simp [span, margin, barred_collapse, h]
  | some o' => exact span_set hset

theorem length_collapse (o : Outline) : o.collapse.length = o.length := by
  induction o with
  | nil => rfl
  | leaf kind hleaf rest ih => simp [collapse, length, ih]
  | bar rest ih => simp [collapse, length, ih]
  | group inner rest ihInner ihRest =>
    have hinner := span_collapseBody_of ihInner
    simp only [collapse, length_group, ihRest]
    rw [← hinner]
    rfl

theorem span_collapseBody (o : Outline) : o.collapseBody.span = o.span :=
  span_collapseBody_of o.length_collapse

section

variable {g : Option Nat} {i : Nat} {finish : Node} {later : List Node}

theorem choices?_of_choice?_none {branch : Node} {nodes : List Node}
    (h : Collapse.choice? branch.kind = none) : Collapse.choices? (branch :: nodes) = none := by
  cases nodes <;> simp [Collapse.choices?, h]

/-- Looking for the choices of a body finds them in the list. -/
theorem choices?_nodes (o : Outline) (g : Option Nat) (i : Nat) (hfinish : finish.kind = .alternationEnd) :
    Collapse.choices? (o.nodes g i ++ finish :: later) = o.choices?.map (·, finish) := by
  fun_induction choices? o generalizing i with
  | case1 kind hleaf =>
    cases hchoice : Collapse.choice? kind <;>
      simp [nodes, Collapse.choices?, Node.bare, hchoice, hfinish]
  | case2 kind hleaf rest ih =>
    cases hchoice : Collapse.choice? kind with
    | none => exact choices?_of_choice?_none hchoice
    | some set =>
      simp only [nodes, List.cons_append, Collapse.choices?, Node.bare, hchoice, ih]
      cases rest.choices? <;> rfl
  | case3 o hlast hbar =>
    cases o with
    | nil => exact choices?_of_choice?_none (by rw [hfinish]; rfl)
    | bar rest => exact choices?_of_choice?_none rfl
    | group inner rest => exact choices?_of_choice?_none rfl
    | leaf kind hleaf rest =>
      cases rest with
      | nil => exact absurd rfl (hlast kind hleaf)
      | bar rest => exact absurd rfl (hbar kind hleaf rest)
      | leaf kind' hleaf' rest =>
        simp only [nodes, List.cons_append, Collapse.choices?, Node.bare]
        cases Collapse.choice? kind <;> cases kind' <;> first | rfl | cases hleaf'
      | group inner rest =>
        simp only [nodes, List.cons_append, Collapse.choices?, Node.bare]
        cases Collapse.choice? kind <;> rfl

/-- What stands between the ends of an alternation that becomes a set. -/
theorem rewrite_choices {o : Outline} {sets : List CharSet} (h : o.choices? = some sets) (g : Option Nat)
    (i : Nat) (hfinish : finish.kind = .alternationEnd) :
    Collapse.rewrite true (o.nodes g i ++ finish :: later) =
      List.replicate o.length (.bare .inert 0 0 g) ++
        { finish with kind := .collapsedEnd } :: Collapse.rewrite false later := by
  have hne {kind : NodeKind} {set : CharSet} (h : Collapse.choice? kind = some set) :
      kind ≠ .alternationEnd := by
    rintro rfl
    cases h
  fun_induction choices? o generalizing i sets with
  | case1 kind hleaf =>
    obtain ⟨set, hset, -⟩ := Option.map_eq_some_iff.1 h
    simp [nodes, Collapse.rewrite, Node.bare, hne hset, hfinish, length]
  | case2 kind hleaf rest ih =>
    obtain ⟨set, hset, hrest⟩ := Option.bind_eq_some_iff.1 h
    obtain ⟨sets', hsets', -⟩ := Option.map_eq_some_iff.1 hrest
    simp [nodes, Collapse.rewrite, Node.bare, hne hset, length, ih hsets', List.replicate_succ]
  | case3 => cases h

/-- Collapsing a whole body, if it can be told for what is in the body. -/
theorem collapse_body_of {o : Outline}
    (h : ∀ i later, (Collapse.rewrite false (o.nodes g i ++ later)).map Node.placeless =
      o.collapse.nodes g i ++ (Collapse.rewrite false later).map Node.placeless) (i : Nat)
    (later : List Node) :
    (Collapse.rewrite false (o.body g i ++ later)).map Node.placeless =
      o.collapseBody.body g i ++ (Collapse.rewrite false later).map Node.placeless := by
  by_cases hbarred : o.barred = true
  · have hbody : o.body g i ++ later = .bare .alternationStart 0 0 g ::
        (o.nodes g (i + 1) ++ .bare .alternationEnd 0 0 g :: later) := by
      simp [body, wrap, margin, hbarred]
    rw [hbody, Collapse.rewrite, choices?_nodes o g (i + 1) rfl]
    cases hchoices : o.choices? with
    | none =>
      have hset : o.set? = none := by simp [set?, hchoices]
      have hbody' : o.collapseBody.body g i = .bare .alternationStart 0 0 g ::
          (o.collapse.nodes g (i + 1) ++ [.bare .alternationEnd 0 0 g]) := by
        simp [collapseBody, hset, body, wrap, margin, barred_collapse, hbarred]
      rw [hbody', List.cons_append, List.append_assoc]
      simp only [Node.bare, Option.map_none, List.map_cons, h]
      rfl
    | some sets =>
      have hset := set?_of_choices? hbarred hchoices
      simp only [Node.bare, Option.map_some, List.map_cons]
      have hinner := @rewrite_choices (.bare .alternationEnd 0 0 g) later o sets hchoices g (i + 1) rfl
      simp only [Node.bare] at hinner
      rw [hinner]
      simp [collapseBody, hset, body, wrap, barred, nodes, nodes_inert, Node.bare, Node.placeless]
  · have hset : o.set? = none := by simp [set?, hbarred]
    have hbody : o.body g i = o.nodes g i := by simp [body, wrap, margin, hbarred]
    have hbody' : o.collapseBody.body g i = o.collapse.nodes g i := by
      simp [collapseBody, hset, body, wrap, margin, barred_collapse, hbarred]
    rw [hbody, hbody', h]

theorem collapse_nodes (o : Outline) (g : Option Nat) (i : Nat) (later : List Node) :
    (Collapse.rewrite false (o.nodes g i ++ later)).map Node.placeless =
      o.collapse.nodes g i ++ (Collapse.rewrite false later).map Node.placeless := by
  have hkeep {kind : NodeKind} (h : kind ≠ .alternationStart) (g : Option Nat) (rest : List Node) :
      (Collapse.rewrite false (.bare kind 0 0 g :: rest)).map Node.placeless =
        .bare kind 0 0 g :: (Collapse.rewrite false rest).map Node.placeless := by
    rw [Collapse.rewrite]
    split
    · contradiction
    · rfl
  induction o generalizing g i later with
  | nil => rfl
  | leaf kind hleaf rest ih =>
    have hne : kind ≠ .alternationStart := by
      rintro rfl
      cases hleaf
    rw [nodes, List.cons_append, hkeep hne, ih]
    rfl
  | bar rest ih =>
    rw [nodes, List.cons_append, hkeep (by decide), ih]
    rfl
  | group inner rest ihInner ihRest =>
    have hinner := collapse_body_of (ihInner (some i)) (i + 1)
    have hcollapse : (group inner rest).collapse = group inner.collapseBody rest.collapse := rfl
    have hclose : NodeKind.groupClose i ≠ .alternationStart := fun h => by cases h
    rw [nodes_group, List.cons_append, List.append_assoc, List.cons_append, hkeep (by decide), hinner,
      hkeep hclose, ihRest, hcollapse, nodes_group, span_collapseBody, List.cons_append, List.append_assoc,
      List.cons_append]

end

theorem collapse_body (o : Outline) (g : Option Nat) (i : Nat) (later : List Node) :
    (Collapse.rewrite false (o.body g i ++ later)).map Node.placeless =
      o.collapseBody.body g i ++ (Collapse.rewrite false later).map Node.placeless :=
  collapse_body_of (o.collapse_nodes g) i later

theorem quantifier?_collapse (o : Outline) : o.collapse.quantifier? = o.quantifier? := by
  cases o <;> rfl

theorem leads_collapse (o : Outline) : o.collapse.leads = o.leads := by
  cases o <;> rfl

theorem leads_collapseBody {o : Outline} (h : o.leads = true) : o.collapseBody.leads = true := by
  unfold collapseBody
  cases hset : o.set? with
  | none => exact o.leads_collapse.trans h
  | some o' =>
    obtain ⟨-, sets, -, rfl⟩ := set?_eq_some hset
    rfl

theorem sound_collapseBody_of {o : Outline} (h : o.collapse.Sound) : o.collapseBody.Sound := by
  unfold collapseBody
  cases hset : o.set? with
  | none => exact h
  | some o' =>
    obtain ⟨-, sets, -, rfl⟩ := set?_eq_some hset
    have hend : (leaf .collapsedEnd rfl nil).Sound := ⟨nofun, trivial⟩
    refine ⟨fun hquantifier => ?_, sound_inert hend rfl o.length⟩
    cases hlen : o.length <;> rw [hlen] at hquantifier <;> cases hquantifier

theorem sound_collapse {o : Outline} (h : o.Sound) : o.collapse.Sound := by
  induction o with
  | nil => trivial
  | leaf kind hleaf rest ih => exact ⟨fun hquantifier => h.1 (rest.quantifier?_collapse ▸ hquantifier), ih h.2⟩
  | bar rest ih => exact ⟨rest.leads_collapse.trans h.1, ih h.2⟩
  | group inner rest ihInner ihRest =>
    obtain ⟨hleads, hinner, hrest⟩ := h
    exact ⟨leads_collapseBody hleads, sound_collapseBody_of (ihInner hinner), ihRest hrest⟩

end Outline

end RegexAutomaton
