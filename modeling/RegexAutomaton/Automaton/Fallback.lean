/-
Where matching falls back to.

If a node in a branch of an alternation does not match, the next branch is
tried. One walk from left to right finds the entry of that branch: a `Book`
for each open alternation holds the nodes that have no fallback yet. Nodes of
the last branch fall back as the alternation around theirs does.
-/
import RegexAutomaton.Node

namespace RegexAutomaton

/-- The nodes of an open alternation that have no fallback yet. -/
structure Book where
  /-- Those of the branch that the walk is in. -/
  pending : List Nat
  /-- Those of earlier branches, which wait for the entry of the next. -/
  awaiting : List Nat
  deriving DecidableEq, Repr

namespace Book

/-- No node yet. -/
def empty : Book := ⟨[], []⟩

/-- A branch ends: its nodes wait for the next one. -/
def turn (b : Book) : Book := ⟨[], b.awaiting ++ b.pending⟩

/-- The nodes that wait have found their fallback. -/
def settle (b : Book) : Book := { b with awaiting := [] }

/-- Put down nodes of the branch that the walk is in. -/
def note (b : Book) (indices : List Nat) : Book := { b with pending := b.pending ++ indices }

/-- Put down nodes in the innermost of some books, if there is one. -/
def noteAll (indices : List Nat) : List Book → List Book
  | [] => []
  | b :: outer => b.note indices :: outer

/-- The books after a node, the innermost first. -/
def after (index : Nat) (kind : NodeKind) (books : List Book) : List Book :=
  match kind with
  | .alternationStart => empty :: books
  | .bar =>
    match books with
    | [] => []
    | b :: outer => b.turn :: outer
  | .alternationEnd =>
    match books with
    | [] => []
    | b :: outer => noteAll b.pending outer
  | kind => if kind.bearsState then noteAll [index] (books.map settle) else books

/-- The nodes that find their fallback at a node, each with that node. -/
def found (index : Nat) (kind : NodeKind) (books : List Book) : List (Nat × Nat) :=
  if kind.bearsState then (books.flatMap (·.awaiting)).map (·, index) else []

/-- All fallbacks that a walk finds in some nodes, the first of which has the
given index. -/
def fallbacks : (books : List Book) → (index : Nat) → List Node → List (Nat × Nat)
  | _, _, [] => []
  | books, index, node :: rest =>
    found index node.kind books ++ fallbacks (after index node.kind books) (index + 1) rest

end Book

/-- The node to fall back to when the one at an index does not match. -/
def Node.fallback? (nodes : List Node) (index : Nat) : Option Nat :=
  (Book.fallbacks [] 0 nodes).lookup index

end RegexAutomaton
