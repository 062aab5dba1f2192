/-
What comes after each node.

After a node matches, matching goes on with the first node on its right that
bears a state, except that a branch goes on after its alternation and not
with the next branch. Where there is no such node the pattern is over. One
walk from right to left finds these nodes: `Outlook` is what the walk knows
of the part on its right.
-/
import RegexAutomaton.Node

namespace RegexAutomaton

/-- What the rest of a list means to the nodes before it. -/
structure Outlook where
  /-- The node to go on with here. -/
  follow : Option Nat
  /-- For each group whose end, but not whose start, is in the rest, from the
  inside out: the node to go on with after the group, and whether the next
  node met on the left is the last of its branch. -/
  groups : List (Option Nat × Bool)
  /-- For each alternation whose end, but not whose start, is in the rest, from
  the inside out: the node to go on with after it. -/
  alternations : List (Option Nat)
  deriving DecidableEq, Repr

namespace Outlook

/-- Nothing follows. -/
def empty : Outlook := ⟨none, [], []⟩

/-- Note in the innermost group whether the next node is the last of a
branch. -/
def setTail (o : Outlook) (tail : Bool) : Outlook :=
  match o.groups with
  | [] => o
  | (close, _) :: outer => { o with groups := (close, tail) :: outer }

/-- Whether the next node is the last of a branch of a group. -/
def isTail (o : Outlook) : Bool :=
  match o.groups with
  | [] => false
  | (_, tail) :: _ => tail

/-- Where matching goes on after the innermost group. -/
def close (o : Outlook) : Option Nat := (o.groups.head?.map (·.1)).join

/-- Link a node that bears a state, and give the outlook to its left. -/
def visit (o : Outlook) (index : Nat) (node : Node) : Node × Outlook :=
  ({ node with next := o.follow, endsGroup := node.endsGroup || o.isTail },
    { o with follow := some index }.setTail false)

/-- Link the node with the given index, and give the outlook to its left. -/
def pass (o : Outlook) (index : Nat) (node : Node) : Node × Outlook :=
  match node.kind with
  | .groupClose _ => (node, { o with groups := (o.follow, true) :: o.groups })
  | .alternationEnd => (node, { o with alternations := o.follow :: o.alternations })
  | .bar => (node, { o with follow := o.alternations.headD none }.setTail true)
  | .alternationStart => (node, { o with alternations := o.alternations.tail })
  | .groupOpen => { o with groups := o.groups.tail }.visit index { node with close := o.close }
  | kind => if kind.bearsState then o.visit index node else (node, o)

/-- Link the nodes of a list, the first of which has the given index and the
last of which has the outlook `o` to its right. The outlook to the left of
the list comes with them. -/
def passAll (o : Outlook) : (index : Nat) → List Node → List Node × Outlook
  | _, [] => ([], o)
  | index, node :: rest =>
    let (rest, o) := passAll o (index + 1) rest
    let (node, o) := o.pass index node
    (node :: rest, o)

@[simp] theorem passAll_nil (o : Outlook) (index : Nat) : o.passAll index [] = ([], o) := rfl

theorem passAll_cons (o : Outlook) (index : Nat) (node : Node) (rest : List Node) :
    o.passAll index (node :: rest) =
      let later := o.passAll (index + 1) rest
      let here := later.2.pass index node
      (here.1 :: later.1, here.2) := rfl

/-- The right part of a list is linked first, and what it leaves is the
outlook of the left part. -/
theorem passAll_append (o : Outlook) (index : Nat) (left right : List Node) :
    o.passAll index (left ++ right) =
      let later := o.passAll (index + left.length) right
      let here := later.2.passAll index left
      (here.1 ++ later.1, here.2) := by
  induction left generalizing index with
  | nil => rfl
  | cons node left ih =>
    have hplace : index + (left.length + 1) = index + 1 + left.length := by omega
    simp only [List.cons_append, passAll_cons, ih, List.length_cons, hplace]

@[simp] theorem length_passAll (o : Outlook) (index : Nat) (nodes : List Node) :
    (o.passAll index nodes).1.length = nodes.length := by
  induction nodes generalizing index with
  | nil => rfl
  | cons node nodes ih => simp [passAll_cons, ih]

end Outlook

/-- Link every node that bears a state to what comes after it. -/
def linkNodes (nodes : List Node) : List Node := (Outlook.empty.passAll 0 nodes).1

@[simp] theorem length_linkNodes (nodes : List Node) : (linkNodes nodes).length = nodes.length :=
  Outlook.length_passAll ..

end RegexAutomaton
