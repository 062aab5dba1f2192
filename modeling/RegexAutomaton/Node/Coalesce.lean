/-
Runs of literals, joined into one node.

A literal is alone if it is one symbol and no quantifier follows it. Each run
of such nodes is joined into its first node; the others become inert.
-/
import RegexAutomaton.Node

namespace RegexAutomaton

namespace Coalesce

/-- Whether a list starts with a quantifier. -/
def quantifierFirst : List Node → Bool
  | [] => false
  | node :: _ => node.kind.repetition?.isSome

/-- The symbol of a literal that is alone, given what follows it. -/
def lone? (node : Node) (rest : List Node) : Option Char :=
  match node.kind with
  | .literal [c] => if quantifierFirst rest then none else some c
  | _ => none

/-- The run of lone literals that a list starts with: the symbols, each with
the offset where its node ends. -/
def run : List Node → List (Char × Nat)
  | [] => []
  | node :: rest =>
    match lone? node rest with
    | some c => (c, node.finish) :: run rest
    | none => []

/-- Join runs of literals, `inside` a run that has been joined already or
not. -/
def rewrite : (inside : Bool) → List Node → List Node
  | _, [] => []
  | inside, node :: rest =>
    match lone? node rest with
    | none => node :: rewrite false rest
    | some c =>
      if inside then { node with kind := .inert } :: rewrite true rest
      else
        let later := run rest
        let finish := (later.getLast?.map (·.2)).getD node.finish
        { node with kind := .literal (c :: later.map (·.1)), length := finish - node.offset } ::
          rewrite true rest

/-- How many nodes become inert, `inside` a run or not. -/
def count : (inside : Bool) → List Node → Nat
  | _, [] => 0
  | inside, node :: rest =>
    match lone? node rest with
    | none => count false rest
    | some _ => (if inside then 1 else 0) + count true rest

@[simp] theorem length_rewrite (inside : Bool) (nodes : List Node) :
    (rewrite inside nodes).length = nodes.length := by
  induction nodes generalizing inside with
  | nil => rfl
  | cons node nodes ih =>
    simp only [rewrite]
    split
    · simp [ih]
    · split <;> simp [ih]

end Coalesce

/-- Join each run of lone literals into its first node. -/
def coalesce (nodes : List Node) : List Node := Coalesce.rewrite false nodes

@[simp] theorem length_coalesce (nodes : List Node) : (coalesce nodes).length = nodes.length :=
  Coalesce.length_rewrite ..

/-- How many nodes `coalesce` joins to others. -/
def coalesceCount (nodes : List Node) : Nat := Coalesce.count false nodes

end RegexAutomaton
