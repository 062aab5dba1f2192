/-
An automaton built by index.

One loop over the nodes drafts a state for each node that bears one, and keeps the number
of that state under the index of the node. A quantifier changes the draft of its atom, and
the entry of a branch the drafts that wait for it. Then the links of the drafts are turned
into numbers of states, and the ways out are looked up in tables.
-/
import RegexAutomaton.Automaton.Build
import RegexAutomaton.Indexed.Access

namespace RegexAutomaton

namespace Indexed

open Checked

variable {ε : Type}

/-! ## Drafts -/

/-- A state whose links are those of its node. -/
structure Draft where
  guard : Guard
  repetition : Repetition
  /-- The state that opens the group around. -/
  group : Option Nat
  /-- The state that a failed match falls back to. -/
  fail : Option Nat
  /-- The node to go on with. -/
  next : Option Nat
  /-- The node to go on with after the group that the state opens. -/
  close : Option Nat
  endsGroup : Bool
  opensGroup : Bool
  deriving DecidableEq, Repr

/-- What a loop over the nodes has put down. -/
structure Drafting where
  /-- For each node the state that it gives, once the loop has passed it. -/
  numbers : List (Option Nat)
  drafts : List Draft
  /-- The states that open the groups around this place, the innermost first. -/
  groups : List Nat
  /-- The states without a fallback, for each open alternation, the innermost first. -/
  books : List Book
  /-- The state that a quantifier would repeat. -/
  atom : Option Nat

/-- The plainest guard for the members of a set. -/
def guardOfSet (set : CharSet) : Checked ε Guard :=
  if set.isAny then pure .dot
  else if !set.negated && set.members.length == 1 then do
    let r ← entry set.members 0
    pure (if r.isSingle then .literal r.lo else .range r.lo r.hi)
  else pure (.set set)

/-- The guard of a node, if the node bears a state. -/
def guard? : NodeKind → Checked ε (Option Guard)
  | .groupOpen => pure (some .group)
  | .literal symbols => pure (some (.ofRun symbols))
  | .bracket set | .collapsedStart set => return some (← guardOfSet set)
  | .dot => pure (some .dot)
  | .anchorStart => pure (some .anchorStart)
  | .anchorEnd => pure (some .anchorEnd)
  | _ => pure none

namespace Drafting

/-- Nothing is put down yet for some nodes. -/
def fresh (nodes : List Node) : Drafting := ⟨nodes.map fun _ => none, [], [], [], none⟩

/-- Draft the state of the node at index `i`. The states that wait for it fall back to
it. -/
def draft (s : Drafting) (i : Nat) (node : Node) (guard : Guard) : Checked ε Drafting := do
  let number := s.drafts.length
  let numbers ← change s.numbers i fun _ => some number
  let drafts ← (s.books.flatMap (·.awaiting)).foldlM
    (fun drafts waiting => change drafts waiting fun d => { d with fail := some number }) s.drafts
  let opensGroup := node.kind == .groupOpen
  pure
    { numbers
      drafts := drafts ++
        [⟨guard, .once, s.groups.head?, none, node.next, node.close, node.endsGroup, opensGroup⟩]
      groups := if opensGroup then number :: s.groups else s.groups
      books := Book.after number node.kind s.books
      atom := some number }

/-- Pass the node at index `i`. -/
def step (nodes : List Node) (s : Drafting) (i : Nat) : Checked ε Drafting := do
  let node ← entry nodes i
  match ← guard? node.kind with
  | some guard => s.draft i node guard
  | none =>
    match node.kind, s.atom with
    | .quantifier q, some atom => do
      let drafts ← change s.drafts atom fun d => { d with repetition := q.repetition }
      pure { s with drafts }
    | .groupClose _, _ => pure { s with atom := s.groups.head?, groups := s.groups.tail }
    | kind, _ => pure { s with books := Book.after s.drafts.length kind s.books }

/-- The state that a link to a node leads to, or `otherwise` if it leads to none. -/
def target (s : Drafting) (otherwise : Nat) : Option Nat → Checked ε Nat
  | none => pure otherwise
  | some i => return (← entry s.numbers i).getD otherwise

/-- The state to go on with after the group that a draft opens. -/
def afterGroup (s : Drafting) (d : Draft) : Checked ε Nat :=
  if d.opensGroup then s.target s.drafts.length d.close else pure s.drafts.length

/-- The state that a draft with the given number turns into, without its ways out. -/
def close (s : Drafting) (d : Draft) (number : Nat) : Checked ε State := do
  let accept := s.drafts.length
  let reject := accept + 1
  let flags : Flags :=
    { optional := d.repetition.isOptional
      member := d.group.isSome
      repeatable := d.repetition.isRepeatable
      endsGroup := d.endsGroup
      opensGroup := d.opensGroup }
  let onMatch ← s.target accept d.next
  let close ← s.afterGroup d
  pure (.closed number onMatch (d.fail.getD reject) (d.group.getD reject) close d.repetition flags d.guard)

end Drafting

/-! ## Ways out -/

/-- The way out when the guard holds, by the number of the flags. -/
def primaryTable : List Exit :=
  [.next, .next, .next, .next, .self, .self, .self, .self,
    .next, .next, .parent, .parent, .self, .self, .self, .self,
    .next, .next, .next, .next, .next, .next, .next, .next,
    .next, .next, .next, .next, .next, .next, .next, .next]

/-- The way out when the guard does not hold. -/
def failedTable : List Exit :=
  [.halt, .next, .halt, .next, .next, .next, .next, .next,
    .halt, .next, .halt, .parent, .next, .next, .parent, .parent,
    .close, .close, .close, .close, .close, .close, .close, .close,
    .close, .close, .close, .close, .close, .close, .close, .close]

/-- The way out of a state whose guard takes no symbol. -/
def lookaheadTable : List Exit :=
  [.next, .next, .next, .next, .next, .next, .next, .next,
    .next, .next, .parent, .parent, .next, .next, .parent, .parent,
    .next, .close, .next, .close, .next, .close, .next, .close,
    .next, .close, .next, .close, .next, .close, .next, .close]

/-- The state with the ways out that the tables give it. The last two of `count` states
keep to themselves. -/
def connect (count : Nat) (s : State) (i : Nat) : Checked ε State :=
  if count - 2 ≤ i then pure s.looped
  else do
    let primary ← entry primaryTable s.flags.bits
    let failed ← entry failedTable s.flags.bits
    let lookahead ← entry lookaheadTable s.flags.bits
    pure { s with primary := s.target primary, failed := s.target failed, lookahead := s.target lookahead }

/-- The automaton of a list of nodes. -/
def build (list : NodeList) : Checked ε Automaton := do
  let s ← (List.range list.nodes.length).foldlM (Drafting.step list.nodes) (.fresh list.nodes)
  let accept := s.drafts.length
  let drafted ← s.drafts.zipIdx.mapM fun part => s.close part.1 part.2
  let closed := drafted ++ [.final accept, .final (accept + 1)]
  let states ← closed.zipIdx.mapM fun part => connect closed.length part.1 part.2
  pure ⟨states, list.groupCount, list.neverMatches⟩

end Indexed

end RegexAutomaton
