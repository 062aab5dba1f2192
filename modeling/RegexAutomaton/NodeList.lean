/-
From a pattern to its nodes.

`NodeList.read` reads, checks and lists a pattern; `NodeList.parse` also
applies the passes that the options ask for.
-/
import RegexAutomaton.Grammar
import RegexAutomaton.Liveness
import RegexAutomaton.Node.Pass

namespace RegexAutomaton

/-- The nodes of a pattern and what is known of the pattern as a whole. -/
structure NodeList where
  nodes : List Node
  /-- How many groups the pattern has. -/
  groupCount : Nat
  /-- The pattern can be seen never to match. -/
  neverMatches : Bool
  /-- How many alternations the pattern has, rewritten ones included. -/
  alternations : Nat
  deriving DecidableEq, Repr

namespace NodeList

/-- The list as lines, one for each node. -/
def text (list : NodeList) : List Char :=
  list.nodes.zipIdx.flatMap fun (node, index) =>
    Numeral.text index ++ ": ".toList ++ node.text ++ ['\n']

/-- List the items of a pattern that has passed the check. -/
def ofItems (items : List (Spanned Item)) (stop : Nat) : NodeList :=
  { nodes := Node.ofItems 0 [] items ++ [.bare .sentinel stop 0 none, .bare .sentinel stop 0 none]
    groupCount := items.countP (·.value == .token .groupOpen)
    neverMatches := Liveness.neverMatches items
    alternations := items.countP (·.value == .alternationStart) }

/-- Read and check a pattern, with its alternations marked. -/
def read (encoding : Encoding) (markers : Markers) (pattern : List Char) :
    Except SyntaxError NodeList :=
  let scan := tokens encoding pattern
  let items := markers.itemsOf scan
  (Grammar.check items scan.stop scan.reason).map fun _ => ofItems items scan.stop

/-- Apply passes to the nodes. -/
def after (list : NodeList) (passes : List Pass) : NodeList :=
  { list with nodes := Pass.runAll passes list.nodes }

/-- Read a pattern. -/
def parse (encoding : Encoding) (pattern : List Char) (options : Options) :
    Except SyntaxError NodeList :=
  (read encoding ((Markers.ofPattern? pattern).getD .empty) pattern).map fun list =>
    list.after options.passes

end NodeList

end RegexAutomaton
