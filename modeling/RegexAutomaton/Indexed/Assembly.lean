/-
The nodes of a pattern, put down one by one.

One walk over the pattern reads a token at a time, after any marker that the tables
have at its offset, checks it against the token before, and puts its node down.
Groups are known by the index of the node that opens them. What the walk knows of the
open bodies says in the end whether the pattern can match at all.
-/
import RegexAutomaton.Indexed.Markers
import RegexAutomaton.NodeList

namespace RegexAutomaton

namespace Indexed

open Checked

/-- What is known after some tokens and markers. -/
structure Assembly where
  nodes : List Node
  /-- The nodes that open the groups around this place, the innermost first. -/
  groups : List Nat
  /-- How many alternations are open. -/
  opened : Nat
  /-- The role of the token or marker before. -/
  before : Role
  /-- The last token is an atom that has to match, or the quantifier of one. -/
  afterRequired : Bool
  groupCount : Nat
  alternations : Nat
  /-- The innermost open body. -/
  body : Body
  /-- The bodies around it, from the inside out. -/
  outer : List Body
  /-- A dead group was closed by the last token. -/
  closedDead : Bool

namespace Assembly

/-- Nothing is put down yet. -/
def fresh : Assembly := ⟨[], [], 0, .start, false, 0, 0, .fresh, [], false⟩

/-- The branch seen last turns out dead. -/
def kill (s : Assembly) : Assembly := { s with body := s.body.kill }

/-- Allow a role after the one before. A dead group closed there has not been spared
and makes its branch dead. -/
def advance (s : Assembly) (after : Role) (offset : Nat) : Checked SyntaxError Assembly :=
  match s.before.refusal? after with
  | some fault => throw ⟨fault, offset⟩
  | none =>
    let settled := if s.closedDead then { s with closedDead := false }.kill else s
    pure { settled with afterRequired := after == .atom, before := after }

/-- Put down a node. -/
def push (s : Assembly) (kind : NodeKind) (offset length : Nat) : Assembly :=
  { s with nodes := s.nodes ++ [.bare kind offset length s.groups.head?] }

/-- A body is opened. -/
def enter (s : Assembly) : Assembly := { s with body := .fresh, outer := s.body :: s.outer }

/-- The innermost body is closed, unless it is the outermost; the answer is whether it
is dead. -/
def leave (s : Assembly) : Bool × Assembly :=
  match s.outer with
  | [] => (false, s)
  | body :: outer => (s.body.isDead, { s with body, outer })

/-- Put down the end of an alternation. -/
def endAlternation (s : Assembly) (offset : Nat) : Checked SyntaxError Assembly := do
  let s ← s.advance .alternationEnd offset
  let opened ← sub s.opened 1
  let (dead, s) := { s.push .alternationEnd offset 0 with opened }.leave
  pure (if dead then s.kill else s)

/-- Put down the start of an alternation. -/
def startAlternation (s : Assembly) (offset : Nat) : Checked SyntaxError Assembly := do
  let s ← s.advance .alternationStart offset
  let s := (s.push .alternationStart offset 0).enter
  pure { s with opened := s.opened + 1, alternations := s.alternations + 1 }

/-- Put down the markers at an offset. -/
def flush (s : Assembly) (tables : Option Tables) (offset : Nat) : Checked SyntaxError Assembly :=
  match tables with
  | none => pure s
  | some t => do
    let s ← if t.endsAt offset && 0 < s.opened then s.endAlternation offset else pure s
    if t.startsAt offset then s.startAlternation offset else pure s

/-- Put down an atom. -/
def atom (s : Assembly) (kind : NodeKind) (offset width : Nat) : Checked SyntaxError Assembly := do
  let s ← s.advance .atom offset
  pure (s.push kind offset width)

/-- Put down a quantifier. One that allows for no time at all spares a dead group. -/
def quantifier (s : Assembly) (q : Quantifier) (offset width : Nat) : Checked SyntaxError Assembly := do
  let afterAtom := s.before == .atom
  let spared := if q.repetition.least = 0 then { s with closedDead := false } else s
  let s ← spared.advance .quantifier offset
  pure { s.push (.quantifier q) offset width with afterRequired := afterAtom && 1 ≤ q.repetition.least }

/-- Put down the start of a group. -/
def openGroup (s : Assembly) (offset : Nat) : Checked SyntaxError Assembly := do
  let s ← s.advance .groupOpen offset
  let s' := (s.push .groupOpen offset 1).enter
  pure { s' with groups := s.nodes.length :: s'.groups, groupCount := s'.groupCount + 1 }

/-- Put down the end of a group. -/
def closeGroup (s : Assembly) (offset : Nat) : Checked SyntaxError Assembly :=
  match s.groups with
  | [] => throw ⟨.strayGroupClose, offset⟩
  | start :: groups => do
    let s ← s.advance .groupClose offset
    let (dead, s) := ({ s with groups }.push (.groupClose start) offset 1).leave
    pure { s with closedDead := dead }

/-- Put down a bar. -/
def bar (s : Assembly) (offset : Nat) : Checked SyntaxError Assembly := do
  let s ← s.advance .bar offset
  let s := s.push .bar offset 1
  pure { s with body := s.body.bar }

/-- Put down an anchor for the start of the text. After an atom that has to match, it
makes its branch dead. -/
def anchorStart (s : Assembly) (offset : Nat) : Checked SyntaxError Assembly := do
  let afterRequired := s.afterRequired
  let s ← s.advance .anchorStart offset
  pure ((if afterRequired then s.kill else s).push .anchorStart offset 1)

/-- Put down an anchor for the end of the text. -/
def anchorEnd (s : Assembly) (offset : Nat) : Checked SyntaxError Assembly := do
  let s ← s.advance .anchorEnd offset
  pure (s.push .anchorEnd offset 1)

/-- Put down the token that the special symbol at position `i` starts; the answer also
has the number of symbols that the token spans. -/
def special (s : Assembly) (encoding : Encoding) (pattern : List Char) (i : Nat) :
    Metachar → Checked SyntaxError (Assembly × Nat)
  | .openGroup => return (← s.openGroup i, 1)
  | .closeGroup => return (← s.closeGroup i, 1)
  | .openBracket => do
    let (set, width) ← readBracket encoding pattern i
    return (← s.atom (.bracket set) i width, width)
  | .closeBracket => throw ⟨.strayBracketClose, i⟩
  | .openRepeat => do
    let (r, width) ← readRepetition pattern i
    return (← s.quantifier (.counted r) i width, width)
  | .closeRepeat => throw ⟨.strayRepeatClose, i⟩
  | .dot => return (← s.atom .dot i 1, 1)
  | .star => return (← s.quantifier .star i 1, 1)
  | .plus => return (← s.quantifier .plus i 1, 1)
  | .question => return (← s.quantifier .question i 1, 1)
  | .bar => return (← s.bar i, 1)
  | .caret => return (← s.anchorStart i, 1)
  | .dollar => return (← s.anchorEnd i, 1)

/-- Put down the token at position `i`, and the markers before it. -/
def step (encoding : Encoding) (pattern : List Char) (tables : Option Tables) (i : Nat) (_ : Char)
    (s : Assembly) : Checked SyntaxError (Move Assembly (Nat × Assembly)) := do
  let s ← s.flush tables i
  match ← readGlyph encoding pattern i with
  | (.literal c, width) => return .goTo (i + width) (← s.atom (.literal [c]) i width)
  | (.special m, _) =>
    let (s, width) ← s.special encoding pattern i m
    pure (.goTo (i + width) s)

/-- The nodes of a pattern whose tokens and markers are all put down. -/
def finish (s : Assembly) (stop : Nat) : Checked SyntaxError NodeList :=
  match s.groups with
  | start :: _ => do
    let node ← entry s.nodes start
    throw ⟨.unclosedGroup, node.offset⟩
  | [] => do
    let s ← s.advance .finish stop
    let listed := (s.push .sentinel stop 0).push .sentinel stop 0
    pure ⟨listed.nodes, s.groupCount, (s.outer.getLast?.getD s.body).isDead, s.alternations⟩

end Assembly

variable (encoding : Encoding) (pattern : List Char) (tables : Option Tables)

/-- Put down the tokens from position `i` on, and their markers. The walk has to end
where the pattern ends. -/
def assembleFrom (i : Nat) (s : Assembly) : Checked SyntaxError Assembly := do
  let (stop, s) ← walk pattern (Assembly.step encoding pattern tables) (fun i s => pure (i, s)) i s
  expect (stop == pattern.length)
  s.flush tables pattern.length

/-- Read and check a pattern, with its alternations marked in tables. -/
def assemble : Checked SyntaxError NodeList := do
  let s ← assembleFrom encoding pattern tables 0 .fresh
  s.finish pattern.length

end Indexed

end RegexAutomaton
