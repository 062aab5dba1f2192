/-
The automaton of a list of nodes.

Every node that bears a state gives one, numbered in order, and everything
about a state is read off the list: `repetitionOf` finds the quantifier of a
node, and `fallback?` the node that a failed match falls back to.
-/
import RegexAutomaton.Automaton
import RegexAutomaton.Automaton.Fallback
import RegexAutomaton.NodeList

namespace RegexAutomaton

namespace Node

/-- How many states the nodes before an index give. -/
def rank (nodes : List Node) (index : Nat) : Nat :=
  (nodes.take index).countP (·.kind.bearsState)

/-- The state that the node at an index gives. -/
def stateOf? (nodes : List Node) (index : Nat) : Option Nat :=
  if nodes[index]?.any (·.kind.bearsState) then some (rank nodes index) else none

/-- The state that a link leads to, or `otherwise` if it leads to none. -/
def targetState (nodes : List Node) (otherwise : Nat) (link : Option Nat) : Nat :=
  (link.bind (stateOf? nodes)).getD otherwise

/-- Each quantifier of a list with the index of the node that it repeats. The
first node of the list has the given index, and a quantifier before any other
node repeats `atom`. -/
def quantified : (index : Nat) → (atom : Option Nat) → List Node → List (Nat × Repetition)
  | _, _, [] => []
  | index, atom, node :: rest =>
    match node.kind with
    | .quantifier q =>
      (atom.map (·, q.repetition)).toList ++ quantified (index + 1) atom rest
    | .groupClose opened => quantified (index + 1) (some opened) rest
    | kind => quantified (index + 1) (if kind.bearsState then some index else atom) rest

/-- How often the node at an index repeats. -/
def repetitionOf (nodes : List Node) (index : Nat) : Repetition :=
  (((quantified 0 none nodes).reverse).lookup index).getD .once

/-- The flags of the state that the node at an index gives. -/
def flags (nodes : List Node) (index : Nat) (node : Node) : Flags :=
  let repetition := repetitionOf nodes index
  { optional := repetition.isOptional
    member := node.group.isSome
    repeatable := repetition.isRepeatable
    endsGroup := node.endsGroup
    opensGroup := node.kind == .groupOpen }

/-- The state that the node at an index gives, without its ways out. -/
def state? (nodes : List Node) (index : Nat) : Option State := do
  let node ← nodes[index]?
  let guard ← Guard.ofKind? node.kind
  let accept := rank nodes nodes.length
  let reject := accept + 1
  some <| .closed
    (rank nodes index)
    (targetState nodes accept node.next)
    (targetState nodes reject (fallback? nodes index))
    (targetState nodes reject node.group)
    (if node.kind = .groupOpen then targetState nodes accept node.close else accept)
    (repetitionOf nodes index) (flags nodes index node) guard

/-- The states that a list of nodes gives, in order. -/
def states (nodes : List Node) : List State :=
  (List.range nodes.length).filterMap (state? nodes)

theorem isSome_state? {nodes : List Node} {index : Nat} {node : Node}
    (h : nodes[index]? = some node) : (state? nodes index).isSome = node.kind.bearsState := by
  rw [← Guard.isSome_ofKind?]
  simp only [state?, h, bind, Option.bind]
  cases Guard.ofKind? node.kind <;> rfl

end Node

/-- The automaton of a list of nodes. -/
def Automaton.ofNodeList (list : NodeList) : Automaton :=
  let accept := Node.rank list.nodes list.nodes.length
  { states := connect (Node.states list.nodes ++ [.final accept, .final (accept + 1)])
    groupCount := list.groupCount
    neverMatches := list.neverMatches }

end RegexAutomaton
