/-
The passes over the nodes of a pattern, by index.

Each pass is one loop over the indices of the nodes, which it changes in place. Ends of
alternations are matched with their starts by a stack of indices, and a run of literals
is known by the index of its first node.
-/
import RegexAutomaton.Indexed.Lexing
import RegexAutomaton.NodeList

namespace RegexAutomaton

namespace Indexed

open Checked

variable {ε : Type}

/-! ## Alternations of single symbols -/

/-- One node more of a body, with its place there: the ranges of the branches so far and
whether one of them is a dot, unless some branch is no single symbol. -/
def choiceStep : Option (List CharRange × Bool) → Node × Nat → Checked ε (Option (List CharRange × Bool))
  | none, _ => pure none
  | some (members, dotted), (node, place) =>
    if place % 2 = 1 then pure (if node.kind = .bar then some (members, dotted) else none)
    else
      match node.kind with
      | .literal run =>
        if run.length = 1 then return some (insert members (.single (← entry run 0)), dotted) else pure none
      | .bracket set => pure (if set.negated then none else some (set.members.foldl insert members, dotted))
      | .dot => pure (some (members, true))
      | _ => pure none

/-- The union of the branches of a body, if each is a single symbol. -/
def choiceSet? (body : List Node) : Checked ε (Option CharSet) :=
  if body.length % 2 = 0 then pure none
  else do
    let found ← body.zipIdx.foldlM choiceStep (some ([], false))
    pure (found.map fun (members, dotted) => if dotted then .any else ⟨false, members⟩)

/-- Rewrite the alternation that ends at index `last`, if it can be. The state holds the
indices of the starts of the open alternations, the innermost first, and the nodes. -/
def collapseStep : List Nat × List Node → Nat → Checked ε (List Nat × List Node)
  | (starts, nodes), last => do
    let finish ← entry nodes last
    match finish.kind with
    | .alternationStart => pure (last :: starts, nodes)
    | .alternationEnd =>
      match starts with
      | [] => pure ([], nodes)
      | first :: starts => do
        match ← choiceSet? (← slice nodes (first + 1) last) with
        | none => pure (starts, nodes)
        | some set => do
          let start ← entry nodes first
          let length ← sub finish.offset start.offset
          let nodes ← change nodes first fun node => { node with kind := .collapsedStart set, length }
          let nodes ← changeAll nodes (first + 1) last fun node => { node with kind := .inert }
          let nodes ← change nodes last fun node => { node with kind := .collapsedEnd }
          pure (starts, nodes)
    | _ => pure (starts, nodes)

/-- Rewrite every alternation of single symbols into a set. -/
def collapse (nodes : List Node) : Checked ε (List Node) := do
  let (_, nodes) ← (List.range nodes.length).foldlM collapseStep ([], nodes)
  pure nodes

/-! ## Runs of literals -/

/-- The symbol of a literal of one symbol. -/
def onlySymbol? : NodeKind → Checked ε (Option Char)
  | .literal run => if run.length = 1 then return some (← entry run 0) else pure none
  | _ => pure none

/-- A literal with one more symbol. -/
def lengthen (c : Char) : NodeKind → NodeKind
  | .literal run => .literal (run ++ [c])
  | kind => kind

/-- Join the node at index `i`, which is a literal of one symbol if `symbol?` says so, to
the run whose first node has the index `head`, or start a run with it. -/
def join (nodes : List Node) (i : Nat) (node : Node) :
    (symbol? : Option Char) → (head : Option Nat) → Checked ε (Option Nat × List Node)
  | none, _ => pure (none, nodes)
  | some _, none => pure (some i, nodes)
  | some c, some h => do
    let first ← entry nodes h
    let length ← sub node.finish first.offset
    let nodes ← change nodes h fun node => { node with kind := lengthen c node.kind, length }
    let nodes ← change nodes i fun node => { node with kind := .inert }
    pure (some h, nodes)

/-- Pass the node at index `i`. A literal that is quantified stays alone. -/
def coalesceStep : Option Nat × List Node → Nat → Checked ε (Option Nat × List Node)
  | (head, nodes), i => do
    let node ← entry nodes i
    let symbol ← onlySymbol? node.kind
    let quantified := nodes[i + 1]?.any (·.kind.repetition?.isSome)
    join nodes i node (if quantified then none else symbol) head

/-- Join each run of lone literals into its first node. -/
def coalesce (nodes : List Node) : Checked ε (List Node) := do
  let (_, nodes) ← (List.range nodes.length).foldlM coalesceStep (none, nodes)
  pure nodes

/-! ## Links -/

/-- What a loop from the last node down knows of the nodes on the right. -/
structure Linkage where
  nodes : List Node
  /-- The node to go on with. -/
  follow : Option Nat
  /-- The node to go on with after each group around this place, the innermost first. -/
  closes : List (Option Nat)
  /-- Whether the next node is the last of its branch, for the outermost level and each
  group around this place, the innermost last. -/
  tails : List Bool
  /-- The node to go on with after each alternation around this place, the innermost
  first. -/
  alternations : List (Option Nat)

namespace Linkage

/-- Link the node at index `i` to what is known. -/
def link (s : Linkage) (i : Nat) : Checked ε Linkage := do
  let ends := s.tails.getLast?.getD false
  let nodes ← change s.nodes i fun node =>
    { node with next := s.follow, endsGroup := if ends then true else node.endsGroup }
  pure { s with nodes, follow := some i, tails := if ends then s.tails.dropLast ++ [false] else s.tails }

/-- Pass the node at index `i`. -/
def step (s : Linkage) (i : Nat) : Checked ε Linkage := do
  let node ← entry s.nodes i
  match node.kind with
  | .groupClose _ => pure { s with closes := s.follow :: s.closes, tails := s.tails ++ [true] }
  | .alternationEnd => pure { s with alternations := s.follow :: s.alternations }
  | .bar => do
    let depth := s.tails.length
    let tails ← if 1 < depth then change s.tails (← sub depth 1) (fun _ => true) else pure s.tails
    pure { s with follow := s.alternations.headD none, tails }
  | .alternationStart => pure { s with alternations := s.alternations.tail }
  | .groupOpen => do
    let nodes ← change s.nodes i fun node => { node with close := s.closes.head?.join }
    { s with nodes, closes := s.closes.tail, tails := s.tails.dropLast }.link i
  | kind => if kind.bearsState then s.link i else pure s

end Linkage

/-- Link every node that bears a state to what comes after it. -/
def linkNodes (nodes : List Node) : Checked ε (List Node) := do
  let s ← (List.range nodes.length).reverse.foldlM Linkage.step ⟨nodes, none, [], [false], []⟩
  pure s.nodes

/-! ## All passes -/

/-- Do a pass, or leave the nodes as they are. -/
def runIf (on : Bool) (pass : List Node → Checked ε (List Node)) (nodes : List Node) : Checked ε (List Node) :=
  if on then pass nodes else pure nodes

/-- The passes that the options ask for. Without an alternation there is nothing to
collapse. -/
def runPasses (options : Options) (list : NodeList) : Checked ε NodeList := do
  let nodes ← runIf (options.collapses && 0 < list.alternations) collapse list.nodes
  let nodes ← runIf options.coalesces coalesce nodes
  let nodes ← linkNodes nodes
  pure { list with nodes }

end Indexed

end RegexAutomaton
