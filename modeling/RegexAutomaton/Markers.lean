/-
Where the alternations of a pattern begin and end.

An alternation is a body with a bar directly in it: the body of a group, or
the whole pattern. `Markers.ofPattern?` finds the two ends of every one
without reading tokens, and puts up with patterns that are not well formed.
Walking left to right it notes where a barred body is left, which is where
the alternation ends; the same walk from right to left notes where it starts.
-/
import RegexAutomaton.CharSet.Bracket

namespace RegexAutomaton

/-- A symbol that matters to where alternations lie. -/
inductive Nesting where
  | opening
  | closing
  | bar
  deriving DecidableEq, Repr

namespace Nesting

/-- Read what one symbol, escape or bracket means for nesting. A bracket that
is never closed hides all that follows. -/
def read : Reader (Option Nesting) Unit := fun _ c rest =>
  if c = Escape.backslash then .ok (none, 2)
  else
    match Metachar.ofChar? c with
    | some .openBracket =>
      match Bracket.extent? rest with
      | some width => .ok (none, width)
      | none => .error ()
    | some .openGroup => .ok (some opening, 1)
    | some .closeGroup => .ok (some closing, 1)
    | some .bar => .ok (some bar, 1)
    | _ => .ok (none, 1)

/-- The nesting of a pattern, each part with its offset. -/
def ofPattern (pattern : List Char) : List (Nat × Nesting) :=
  (read.scan pattern).pieces.filterMap fun piece => piece.value.map (piece.offset, ·)

/-- Walk through a nesting, going one level deeper at each `enter`. Answers
with the offsets at which a level with a bar is left, and with whether the
outermost level has a bar. `inner` says of each level inside the outermost
one, the deepest first, whether it has had a bar; `outer` says so of the
outermost one, which is never left. -/
def barredExits (enter : Nesting) :
    (inner : List Bool) → (outer : Bool) → List (Nat × Nesting) → List Nat × Bool
  | _, outer, [] => ([], outer)
  | inner, outer, (offset, part) :: rest =>
    if part = bar then
      match inner with
      | [] => barredExits enter [] true rest
      | _ :: below => barredExits enter (true :: below) outer rest
    else if part = enter then barredExits enter (false :: inner) outer rest
    else
      match inner with
      | [] => barredExits enter [] outer rest
      | barred :: below =>
        let later := barredExits enter below outer rest
        (if barred then offset :: later.1 else later.1, later.2)

end Nesting

/-- The offsets right before which alternations start, and those right before
which they end. The end of the pattern counts as an offset. -/
structure Markers where
  starts : List Nat
  ends : List Nat
  deriving DecidableEq, Repr

namespace Markers

/-- No marker anywhere. -/
def empty : Markers := ⟨[], []⟩

/-- Whether an alternation starts right before an offset. -/
def startsAt (m : Markers) (offset : Nat) : Bool := m.starts.contains offset

/-- Whether an alternation ends right before an offset. -/
def endsAt (m : Markers) (offset : Nat) : Bool := m.ends.contains offset

/-- How many places of a pattern a marker may stand at: one before each symbol
and one at the end. -/
def places (pattern : List Char) : Nat := pattern.length + 1

/-- The markers of a pattern, unless it has no bar. -/
def ofPattern? (pattern : List Char) : Option Markers :=
  let nesting := Nesting.ofPattern pattern
  if nesting.any (·.2 == .bar) then
    let left := Nesting.barredExits .closing [] false nesting.reverse
    let right := Nesting.barredExits .opening [] false nesting
    some
      { starts := (if left.2 then [0] else []) ++ (left.1.map (· + 1)).reverse
        ends := right.1 ++ (if right.2 then [pattern.length] else []) }
  else none

end Markers

end RegexAutomaton
