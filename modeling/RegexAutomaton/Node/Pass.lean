/-
The passes over a list of nodes, and which of them the options ask for.

No pass adds or removes a node. Rewriting comes before linking, which finds
the nodes that are left.
-/
import RegexAutomaton.Node.Coalesce
import RegexAutomaton.Node.Collapse
import RegexAutomaton.Node.Continuation
import RegexAutomaton.Options

namespace RegexAutomaton

/-- A change to the nodes of a pattern that keeps what the pattern matches. -/
inductive Pass where
  /-- Rewrite alternations of single symbols into sets. -/
  | collapse
  /-- Join runs of literals. -/
  | coalesce
  /-- Link nodes to what comes after them. -/
  | link
  deriving DecidableEq, Repr

namespace Pass

/-- Apply a pass. -/
def run : Pass → List Node → List Node
  | collapse => RegexAutomaton.collapse
  | coalesce => RegexAutomaton.coalesce
  | link => linkNodes

/-- Apply passes one after the other. -/
def runAll (passes : List Pass) (nodes : List Node) : List Node :=
  passes.foldl (fun nodes pass => pass.run nodes) nodes

@[simp] theorem runAll_append (left right : List Pass) (nodes : List Node) :
    runAll (left ++ right) nodes = runAll right (runAll left nodes) := List.foldl_append

/-- **What each pass keeps, all passes keep.** -/
theorem runAll_induction {motive : List Node → Prop}
    (hcollapse : ∀ nodes, motive nodes → motive (RegexAutomaton.collapse nodes))
    (hcoalesce : ∀ nodes, motive nodes → motive (RegexAutomaton.coalesce nodes))
    (hlink : ∀ nodes, motive nodes → motive (linkNodes nodes))
    (passes : List Pass) {nodes : List Node} (h : motive nodes) : motive (runAll passes nodes) := by
  induction passes generalizing nodes with
  | nil => exact h
  | cons pass passes ih =>
    refine @ih (pass.run nodes) ?_
    cases pass with
    | collapse => exact hcollapse nodes h
    | coalesce => exact hcoalesce nodes h
    | link => exact hlink nodes h

end Pass

/-- The passes that the options ask for, in order. -/
def Options.passes (o : Options) : List Pass :=
  (if o.collapses then [.collapse] else []) ++ (if o.coalesces then [.coalesce] else []) ++ [.link]

/-- A pass keeps the number of nodes. -/
@[simp] theorem Pass.length_run (pass : Pass) (nodes : List Node) :
    (pass.run nodes).length = nodes.length := by
  cases pass <;> simp [run]

end RegexAutomaton
