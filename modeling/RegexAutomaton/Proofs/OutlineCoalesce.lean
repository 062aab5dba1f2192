/-
Coalescing, on outlines.

`Outline.coalesce` does to a tree what the pass does to a list
(`Outline.coalesce_body`), as long as no run goes on after it, and leaves it
as sound as it was. Neither looks at places.
-/
import RegexAutomaton.Proofs.Outline

namespace RegexAutomaton

namespace Coalesce

theorem lone?_placeless (node : Node) (rest : List Node) :
    lone? node.placeless (rest.map Node.placeless) = lone? node rest := by
  have hfirst : quantifierFirst (rest.map Node.placeless) = quantifierFirst rest := by
    cases rest <;> rfl
  unfold lone?
  rw [hfirst]
  rfl

theorem run_placeless (nodes : List Node) :
    (run (nodes.map Node.placeless)).map (·.1) = (run nodes).map (·.1) := by
  induction nodes with
  | nil => rfl
  | cons node rest ih =>
    simp only [List.map_cons, run, lone?_placeless]
    split <;> simp [ih]

theorem rewrite_placeless (inside : Bool) (nodes : List Node) :
    (rewrite inside (nodes.map Node.placeless)).map Node.placeless =
      (rewrite inside nodes).map Node.placeless := by
  induction nodes generalizing inside with
  | nil => rfl
  | cons node rest ih =>
    simp only [List.map_cons, rewrite, lone?_placeless]
    split
    · simp [ih, Node.placeless]
    · split <;> simp [ih, run_placeless, Node.placeless]

end Coalesce

namespace Outline

/-- The symbol of a leaf that is alone, given what follows it. -/
def lone? (kind : NodeKind) (rest : Outline) : Option Char :=
  match kind with
  | .literal [c] => if rest.quantifier?.isSome then none else some c
  | _ => none

/-- The run of lone literals that comes first. -/
def run : Outline → List Char
  | leaf kind _ rest =>
    match lone? kind rest with
    | some c => c :: rest.run
    | none => []
  | _ => []

/-- Join runs of literals, `inside` a run that has been joined already or
not. -/
def coalesce : (inside : Bool) → Outline → Outline
  | _, nil => nil
  | inside, leaf kind isLeaf rest =>
    match lone? kind rest with
    | none => leaf kind isLeaf (rest.coalesce false)
    | some c =>
      if inside then leaf .inert NodeKind.isStructural_inert (rest.coalesce true)
      else leaf (.literal (c :: rest.run)) rfl (rest.coalesce true)
  | _, bar rest => bar (rest.coalesce false)
  | _, group inner rest => group (inner.coalesce false) (rest.coalesce false)

theorem barred_coalesce (inside : Bool) (o : Outline) : (o.coalesce inside).barred = o.barred := by
  induction o generalizing inside with
  | nil => rfl
  | leaf kind hleaf rest ih =>
    rw [coalesce]
    split
    · exact ih false
    · split <;> exact ih true
  | bar rest ih => rfl
  | group inner rest _ ihRest => exact ihRest false

theorem length_coalesce (inside : Bool) (o : Outline) : (o.coalesce inside).length = o.length := by
  induction o generalizing inside with
  | nil => rfl
  | leaf kind hleaf rest ih =>
    rw [coalesce]
    split
    · simp [length, ih]
    · split <;> simp [length, ih]
  | bar rest ih => simp [coalesce, length, ih]
  | group inner rest ihInner ihRest =>
    simp [coalesce, length, margin, barred_coalesce, ihInner, ihRest]

theorem span_coalesce (inside : Bool) (o : Outline) : (o.coalesce inside).span = o.span := by
  simp [span, margin, barred_coalesce, length_coalesce]

/-- The node that comes next, if there is one, ends every run. -/
def Stops (later : List Node) : Prop :=
  ∀ node ∈ later.head?, node.kind.isStructural = true ∨ node.kind = .sentinel

theorem stops_cons {node : Node} (h : node.kind.isStructural = true ∨ node.kind = .sentinel)
    (later : List Node) : Stops (node :: later) := by
  intro node' hnode'
  obtain rfl := Option.some.inj hnode'
  exact h

section

variable {later : List Node} {g : Option Nat} {i : Nat}

/-- What ends every run is no quantifier, belongs to no run, and is read in the
same way inside a run as outside. -/
theorem Stops.facts (h : Stops later) : Coalesce.quantifierFirst later = false ∧ Coalesce.run later = [] ∧
    ∀ inside, Coalesce.rewrite inside later = Coalesce.rewrite false later := by
  cases later with
  | nil => exact ⟨rfl, rfl, fun inside => rfl⟩
  | cons node later =>
    have hlone : Coalesce.lone? node later = none := by
      rcases h node rfl with hkind | hkind <;> cases hnode : node.kind <;>
        simp_all [Coalesce.lone?, NodeKind.isStructural]
    refine ⟨?_, ?_, fun inside => ?_⟩
    · rcases h node rfl with hkind | hkind <;> cases hnode : node.kind <;>
        simp_all [Coalesce.quantifierFirst, NodeKind.repetition?, NodeKind.isStructural]
    · simp [Coalesce.run, hlone]
    · simp [Coalesce.rewrite, hlone]

theorem quantifierFirst_nodes (h : Stops later) (o : Outline) :
    Coalesce.quantifierFirst (o.nodes g i ++ later) = o.quantifier?.isSome := by
  cases o with
  | nil => exact h.facts.1
  | _ => rfl

theorem lone?_nodes (h : Stops later) (kind : NodeKind) (rest : Outline) :
    Coalesce.lone? (.bare kind 0 0 g) (rest.nodes g i ++ later) = lone? kind rest := by
  unfold Coalesce.lone?
  rw [quantifierFirst_nodes h]
  rfl

theorem run_nodes (h : Stops later) (o : Outline) :
    (Coalesce.run (o.nodes g i ++ later)).map (·.1) = o.run := by
  induction o generalizing i with
  | nil => simp [nodes, h.facts.2.1, run]
  | leaf kind hleaf rest ih =>
    simp only [nodes, List.cons_append, Coalesce.run, lone?_nodes h, run]
    cases lone? kind rest <;> simp [ih]
  | bar rest ih => rfl
  | group inner rest _ _ => rfl

theorem coalesce_body_of {o : Outline}
    (h : ∀ i later, Stops later → (Coalesce.rewrite false (o.nodes g i ++ later)).map Node.placeless =
      (o.coalesce false).nodes g i ++ (Coalesce.rewrite false later).map Node.placeless) (i : Nat)
    (hlater : Stops later) :
    (Coalesce.rewrite false (o.body g i ++ later)).map Node.placeless =
      (o.coalesce false).body g i ++ (Coalesce.rewrite false later).map Node.placeless := by
  unfold body wrap margin
  rw [barred_coalesce]
  split
  · have hend : Stops (.bare .alternationEnd 0 0 g :: later) := stops_cons (.inl rfl) later
    have hbody := h (i + 1) _ hend
    simp only [List.cons_append, List.append_assoc]
    exact congrArg (_ :: ·) hbody
  · exact h i later hlater

theorem coalesce_nodes (o : Outline) (inside : Bool) (g : Option Nat) (i : Nat) (hlater : Stops later) :
    (Coalesce.rewrite inside (o.nodes g i ++ later)).map Node.placeless =
      (o.coalesce inside).nodes g i ++ (Coalesce.rewrite false later).map Node.placeless := by
  induction o generalizing inside g i later with
  | nil => rw [nodes, List.nil_append, hlater.facts.2.2 inside]; rfl
  | leaf kind hleaf rest ih =>
    rw [nodes, List.cons_append, Coalesce.rewrite, lone?_nodes hlater, coalesce]
    cases lone? kind rest with
    | none => exact congrArg (_ :: ·) (ih false g (i + 1) hlater)
    | some c =>
      have hrest := ih true g (i + 1) hlater
      cases inside with
      | true => exact congrArg (_ :: ·) hrest
      | false =>
        simp only [Bool.false_eq_true, if_false, List.map_cons, run_nodes hlater]
        exact congrArg (_ :: ·) hrest
  | bar rest ih => exact congrArg (_ :: ·) (ih false g (i + 1) hlater)
  | group inner rest ihInner ihRest =>
    have hclose : Stops (.bare (.groupClose i) 0 0 g :: (rest.nodes g (i + 1 + inner.span + 1) ++ later)) :=
      stops_cons (.inl rfl) _
    have hinner := coalesce_body_of (fun i' later => ihInner false (some i) i') (i + 1) hclose
    have hcoalesce : (group inner rest).coalesce inside = group (inner.coalesce false) (rest.coalesce false) :=
      rfl
    have hcons {kind : NodeKind} (hkind : kind.isStructural = true) (rest : List Node) (inside : Bool) :
        (Coalesce.rewrite inside (.bare kind 0 0 g :: rest)).map Node.placeless =
          .bare kind 0 0 g :: (Coalesce.rewrite false rest).map Node.placeless := by
      have hlone : Coalesce.lone? (.bare kind 0 0 g) rest = none := by
        cases kind <;> first | rfl | cases hkind
      rw [Coalesce.rewrite, hlone]
      rfl
    rw [nodes_group, List.cons_append, List.append_assoc, List.cons_append, hcons rfl, hinner, hcons rfl,
      ihRest false g _ hlater, hcoalesce, nodes_group, span_coalesce, List.cons_append, List.append_assoc,
      List.cons_append]

theorem coalesce_body (o : Outline) (g : Option Nat) (i : Nat) (hlater : Stops later) :
    (Coalesce.rewrite false (o.body g i ++ later)).map Node.placeless =
      (o.coalesce false).body g i ++ (Coalesce.rewrite false later).map Node.placeless :=
  coalesce_body_of (fun i _ => o.coalesce_nodes false g i) i hlater

end

theorem lone?_eq_some {kind : NodeKind} {rest : Outline} {c : Char} (h : lone? kind rest = some c) :
    kind = .literal [c] ∧ rest.quantifier? = none := by
  unfold lone? at h
  split at h
  · split at h
    · cases h
    · next hfirst =>
      obtain rfl := Option.some.inj h
      exact ⟨rfl, by simpa using hfirst⟩
  · cases h

theorem quantifier?_coalesce (inside : Bool) (o : Outline) :
    (o.coalesce inside).quantifier? = o.quantifier? := by
  cases o with
  | leaf kind hleaf rest =>
    rw [coalesce]
    cases hlone : lone? kind rest with
    | none => rfl
    | some c =>
      obtain ⟨rfl, -⟩ := lone?_eq_some hlone
      cases inside <;> rfl
  | _ => rfl

theorem leads_coalesce {o : Outline} (h : o.leads = true) : (o.coalesce false).leads = true := by
  cases o with
  | leaf kind hleaf rest =>
    rw [coalesce]
    cases lone? kind rest with
    | none => exact h
    | some c => rfl
  | group inner rest => rfl
  | nil => cases h
  | bar rest => cases h

theorem sound_coalesce {o : Outline} (h : o.Sound) (inside : Bool) : (o.coalesce inside).Sound := by
  induction o generalizing inside with
  | nil => trivial
  | leaf kind hleaf rest ih =>
    rw [coalesce]
    cases hlone : lone? kind rest with
    | none => exact ⟨fun hquantifier => h.1 (rest.quantifier?_coalesce false ▸ hquantifier), ih h.2 false⟩
    | some c =>
      -- What is alone has no quantifier after it.
      have hnot : ((rest.coalesce true).quantifier?.isSome = true) → False := by
        simp [quantifier?_coalesce, (lone?_eq_some hlone).2]
      cases inside <;> exact ⟨fun hquantifier => (hnot hquantifier).elim, ih h.2 true⟩
  | bar rest ih => exact ⟨leads_coalesce h.1, ih h.2 false⟩
  | group inner rest ihInner ihRest =>
    obtain ⟨hleads, hinner, hrest⟩ := h
    exact ⟨leads_coalesce hleads, ihInner hinner false, ihRest hrest false⟩

end Outline

end RegexAutomaton
