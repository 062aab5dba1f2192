/-
Alternations of single symbols, rewritten into sets.

If every branch of an alternation is one symbol, one bracket that is not
negated, or a dot, the alternation matches one symbol out of a set. Its start
becomes a node for that set and its other nodes become inert.
-/
import RegexAutomaton.Node

namespace RegexAutomaton

namespace CharSet

/-- The union of some sets that are not negated, or are everything. -/
def union (sets : List CharSet) : CharSet :=
  if sets.any isAny then any else ofMembers (sets.flatMap members)

end CharSet

namespace Collapse

/-- The symbols that a node matches, if it may be a branch of an alternation
that is rewritten. -/
def choice? : NodeKind → Option CharSet
  | .literal [c] => some ⟨false, [.single c]⟩
  | .bracket set => if set.negated then none else some set
  | .dot => some .any
  | _ => none

/-- The branches between here and the end of the alternation, and its end, if
each branch is a single choice. -/
def choices? : List Node → Option (List CharSet × Node)
  | branch :: separator :: rest =>
    match choice? branch.kind with
    | none => none
    | some set =>
      match separator.kind with
      | .alternationEnd => some ([set], separator)
      | .bar => (choices? rest).map fun (sets, finish) => (set :: sets, finish)
      | _ => none
  | _ => none

/-- Rewrite nodes, `inside` an alternation that is being rewritten or not. -/
def rewrite : (inside : Bool) → List Node → List Node
  | _, [] => []
  | true, node :: rest =>
    if node.kind = .alternationEnd then { node with kind := .collapsedEnd } :: rewrite false rest
    else { node with kind := .inert } :: rewrite true rest
  | false, node :: rest =>
    match node.kind, choices? rest with
    | .alternationStart, some (sets, finish) =>
      { node with kind := .collapsedStart (.union sets), length := finish.offset - node.offset } ::
        rewrite true rest
    | _, _ => node :: rewrite false rest

@[simp] theorem length_rewrite (inside : Bool) (nodes : List Node) :
    (rewrite inside nodes).length = nodes.length := by
  induction nodes generalizing inside with
  | nil => cases inside <;> rfl
  | cons node nodes ih =>
    cases inside <;> simp only [rewrite] <;> split <;> simp [ih]

end Collapse

/-- Rewrite every alternation of single symbols into a set. -/
def collapse (nodes : List Node) : List Node := Collapse.rewrite false nodes

@[simp] theorem length_collapse (nodes : List Node) : (collapse nodes).length = nodes.length :=
  Collapse.length_rewrite ..

/-- How many alternations `collapse` rewrites. -/
def collapseCount : List Node → Nat
  | [] => 0
  | node :: rest =>
    (if node.kind = .alternationStart ∧ (Collapse.choices? rest).isSome then 1 else 0) +
      collapseCount rest

end RegexAutomaton
