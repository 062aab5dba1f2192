/-
A checked pattern as a flat list of nodes.

There is one node for each item, with the place in the pattern that it comes
from, and two sentinels after the last one. Nodes refer to each other by
index. `Node.ofItems` makes the nodes; rewriting may replace the kind of a
node later, but never removes a node, so indices stay good.
-/
import RegexAutomaton.Item

namespace RegexAutomaton

/-- What a node stands for. -/
inductive NodeKind where
  | groupOpen
  /-- The end of the group that the node at index `opened` starts. -/
  | groupClose (opened : Nat)
  | alternationStart
  | bar
  | alternationEnd
  /-- One symbol, or a run of them. -/
  | literal (run : List Char)
  | bracket (set : CharSet)
  | dot
  | anchorStart
  | anchorEnd
  | quantifier (q : Quantifier)
  /-- An alternation of single symbols, rewritten into a set. -/
  | collapsedStart (set : CharSet)
  | collapsedEnd
  /-- A node that has been rewritten away. -/
  | inert
  /-- A sentinel. -/
  | sentinel
  deriving DecidableEq, Repr

namespace NodeKind

/-- Whether the node turns into a state of the automaton. -/
def bearsState : NodeKind → Bool
  | groupOpen | literal _ | bracket _ | dot | anchorStart | anchorEnd | collapsedStart _ => true
  | _ => false

/-- The repetition that a quantifier asks for. -/
def repetition? : NodeKind → Option Repetition
  | quantifier q => some q.repetition
  | _ => none

/-- Whether the node matches exactly one symbol at a time. -/
def isSingleSymbol : NodeKind → Bool
  | literal run => run.length == 1
  | bracket _ | dot | collapsedStart _ => true
  | _ => false

/-- The kind in a listing of nodes. -/
def text : NodeKind → List Char
  | groupOpen => ['(']
  | groupClose opened => ')' :: '#' :: Numeral.text opened
  | alternationStart => "<alt".toList
  | bar => ['|']
  | alternationEnd => "alt>".toList
  | literal run => Escape.writeAll run
  | bracket set | collapsedStart set => set.text
  | dot => ['.']
  | anchorStart => ['^']
  | anchorEnd => ['$']
  | quantifier q => q.repetition.text
  | collapsedEnd => "set>".toList
  | inert => ['~']
  | sentinel => "null".toList

/-- The kind of node that an item gives, inside the groups opened by the nodes
at the given indices, the innermost first. -/
def ofItem (groups : List Nat) : Item → NodeKind
  | .token (.atom (.literal c)) => literal [c]
  | .token (.atom (.bracket set)) => bracket set
  | .token (.atom .dot) => dot
  | .token (.quantifier q) => quantifier q
  | .token .anchorStart => anchorStart
  | .token .anchorEnd => anchorEnd
  | .token .groupOpen => groupOpen
  | .token .groupClose => groupClose (groups.headD 0)
  | .token .bar => bar
  | .alternationStart => alternationStart
  | .alternationEnd => alternationEnd

end NodeKind

/-- A node, where it comes from, and its links to other nodes. -/
structure Node where
  kind : NodeKind
  /-- Where the symbols that the node comes from start. -/
  offset : Nat
  /-- How many symbols the node comes from. -/
  length : Nat
  /-- The node to go on with after this one matches. -/
  next : Option Nat
  /-- For the start of a group, the node to go on with after the group. -/
  close : Option Nat
  /-- The node that opens the group around this one. -/
  group : Option Nat
  /-- Nothing comes after this node in its branch of a group. -/
  endsGroup : Bool
  deriving DecidableEq, Repr

namespace Node

/-- A node without links. -/
def bare (kind : NodeKind) (offset length : Nat) (group : Option Nat) : Node :=
  ⟨kind, offset, length, none, none, group, false⟩

/-- The offset just after the symbols that the node comes from. -/
def finish (node : Node) : Nat := node.offset + node.length

/-- A link in a listing of nodes. -/
def linkText : Option Nat → List Char
  | some index => '#' :: Numeral.text index
  | none => ['-']

/-- The node in a listing of nodes. -/
def text (node : Node) : List Char :=
  node.kind.text ++ " @".toList ++ Numeral.text node.offset ++ '+' :: Numeral.text node.length ++
    " next=".toList ++ linkText node.next ++ " close=".toList ++ linkText node.close ++
    " group=".toList ++ linkText node.group ++ (if node.endsGroup then " ends".toList else [])

/-- The groups that are open after an item whose node has the given index. -/
def groupsAfter (index : Nat) (groups : List Nat) : Item → List Nat
  | .token .groupOpen => index :: groups
  | .token .groupClose => groups.tail
  | _ => groups

/-- The groups around the node of an item. The two ends of a group are outside
it. -/
def groupsAround (groups : List Nat) : Item → List Nat
  | .token .groupClose => groups.tail
  | _ => groups

/-- The node of an item, inside the given groups. -/
def ofItem (groups : List Nat) (item : Spanned Item) : Node :=
  bare (.ofItem groups item.value) item.offset item.width (groupsAround groups item.value).head?

/-- The nodes of some items, the first of which has the given index. -/
def ofItems : (index : Nat) → (groups : List Nat) → List (Spanned Item) → List Node
  | _, _, [] => []
  | index, groups, item :: rest =>
    ofItem groups item :: ofItems (index + 1) (groupsAfter index groups item.value) rest

/-- The indices of the nodes that bear a state. -/
def stateIndices (nodes : List Node) : List Nat :=
  (nodes.zipIdx.filter (·.1.kind.bearsState)).map (·.2)

/-- The indices of the nodes that match exactly one symbol at a time. -/
def singleSymbolIndices (nodes : List Node) : List Nat :=
  (nodes.zipIdx.filter (·.1.kind.isSingleSymbol)).map (·.2)

@[simp] theorem length_ofItems (index : Nat) (groups : List Nat) (items : List (Spanned Item)) :
    (ofItems index groups items).length = items.length := by
  induction items generalizing index groups with
  | nil => rfl
  | cons item items ih => simp [ofItems, ih]

theorem exists_of_mem_ofItems {node : Node} {index : Nat} {groups : List Nat} {items : List (Spanned Item)}
    (h : node ∈ ofItems index groups items) : ∃ item ∈ items, ∃ groups, node = ofItem groups item := by
  induction items generalizing index groups with
  | nil => cases h
  | cons item items ih =>
    rcases List.mem_cons.1 h with rfl | h
    · exact ⟨item, List.mem_cons_self, groups, rfl⟩
    · obtain ⟨later, hlater, hnode⟩ := ih h
      exact ⟨later, List.mem_cons_of_mem _ hlater, hnode⟩

end Node

end RegexAutomaton
