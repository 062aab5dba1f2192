/-
Patterns that can be seen never to match.

A branch is dead if a start anchor comes directly after an atom that has to
match, or if it has to match a group all of whose branches are dead. A
pattern is dead if all of its branches are. `Liveness.neverMatches` decides
this in one walk over the items.
-/
import RegexAutomaton.Item

namespace RegexAutomaton

/-- What is known of a body whose items have been seen up to some place. -/
structure Body where
  /-- The branch seen last is dead. -/
  lastDead : Bool
  /-- All the branches before it are dead. -/
  othersDead : Bool
  deriving DecidableEq, Repr

namespace Body

/-- Nothing seen yet. -/
def fresh : Body := ⟨false, true⟩

/-- The branch seen last turns out dead. -/
def kill (b : Body) : Body := { b with lastDead := true }

/-- Another branch starts. -/
def bar (b : Body) : Body := ⟨false, b.othersDead && b.lastDead⟩

/-- Whether all the branches are dead. -/
def isDead (b : Body) : Bool := b.othersDead && b.lastDead

end Body

/-- What is known after some items of a pattern. -/
structure Liveness where
  /-- The innermost open body. -/
  body : Body
  /-- The bodies around it, from the inside out. -/
  outer : List Body
  /-- The last item closed a dead group. -/
  closedDead : Bool
  /-- The last item is an atom. -/
  afterAtom : Bool
  /-- The last item is an atom that has to match, or the quantifier of one. -/
  afterRequired : Bool
  deriving DecidableEq, Repr

namespace Liveness

/-- Nothing seen yet. -/
def fresh : Liveness := ⟨.fresh, [], false, false, false⟩

/-- The branch seen last turns out dead. -/
def kill (s : Liveness) : Liveness := { s with body := s.body.kill }

/-- A body is opened. -/
def enter (s : Liveness) : Liveness := { s with body := .fresh, outer := s.body :: s.outer }

/-- The innermost body is closed. The outermost one stays. -/
def leave (s : Liveness) : Liveness :=
  match s.outer with
  | [] => s
  | body :: outer => { s with body, outer }

/-- Whether the innermost body can be closed and is dead. -/
def leavesDead (s : Liveness) : Bool := !s.outer.isEmpty && s.body.isDead

/-- A dead group makes its branch dead unless the item after it lets the group
match no time at all. -/
def settle (s : Liveness) (spared : Bool) : Liveness :=
  let s' := { s with closedDead := false }
  if s.closedDead && !spared then s'.kill else s'

/-- Whether an item lets what is before it match no time at all. -/
def spares : Item → Bool
  | .token (.quantifier q) => q.repetition.isOptional
  | _ => false

/-- What is known after one more item. -/
def step (s : Liveness) (item : Item) : Liveness :=
  let settled := s.settle (spares item)
  let here := { settled with afterAtom := false, afterRequired := false }
  match item with
  | .token (.atom _) => { here with afterAtom := true, afterRequired := true }
  | .token (.quantifier q) => { here with afterRequired := s.afterAtom && !q.repetition.isOptional }
  | .token .anchorStart => if s.afterRequired then here.kill else here
  | .token .anchorEnd => here
  | .token .groupOpen => here.enter
  | .token .groupClose => { here.leave with closedDead := here.leavesDead }
  | .token .bar => { here with body := here.body.bar }
  | .alternationStart => here.enter
  | .alternationEnd => if here.leavesDead then here.leave.kill else here.leave

/-- The body of the whole pattern. -/
def outermost (s : Liveness) : Body := s.outer.getLast?.getD s.body

/-- Whether every branch of a pattern with these items is dead. -/
def neverMatches (items : List (Spanned Item)) : Bool :=
  ((items.foldl (fun s item => s.step item.value) fresh).settle false).outermost.isDead

end Liveness

end RegexAutomaton
