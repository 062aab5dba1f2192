/-
The markers of a pattern, in tables with an entry for each offset.

Two sweeps over the parentheses and bars of a pattern, one from each side, mark where
alternations start and end. A sweep counts the bars at each level it is in, the
outermost level first, and marks an offset where it leaves a level with bars. Each
table has one entry more than the pattern has symbols.
-/
import RegexAutomaton.Indexed.Lexing
import RegexAutomaton.Markers

namespace RegexAutomaton

namespace Indexed

open Checked

variable {ε : Type}

/-- One step of the walk that finds the parentheses and bars of a pattern. Everything
after a bracket that is never closed belongs to it. -/
def nestingStep (pattern : List Char) (i : Nat) (c : Char) (found : List (Nat × Nesting)) :
    Checked ε (Move (List (Nat × Nesting)) (List (Nat × Nesting))) :=
  if c = Escape.backslash then pure (.goTo (i + 2) found)
  else
    match Metachar.ofChar? c with
    | some .openBracket => do
      match ← extent? pattern i with
      | some width => pure (.goTo (i + width) found)
      | none => pure (.stop found)
    | some .openGroup => pure (.goTo (i + 1) (found ++ [(i, .opening)]))
    | some .closeGroup => pure (.goTo (i + 1) (found ++ [(i, .closing)]))
    | some .bar => pure (.goTo (i + 1) (found ++ [(i, .bar)]))
    | _ => pure (.goTo (i + 1) found)

/-- The parentheses and bars of a pattern. -/
def nesting (pattern : List Char) : Checked ε (List (Nat × Nesting)) :=
  walk pattern (nestingStep pattern) (fun _ found => pure found) 0 []

/-- One step of a sweep that goes a level deeper at each `enter`, and marks an offset
`shift` behind the one where it leaves a level with bars. -/
def sweepStep (enter : Nesting) (shift : Nat) (state : List Nat × List Bool) (part : Nat × Nesting) :
    Checked ε (List Nat × List Bool) :=
  let (bars, table) := state
  if part.2 = .bar then pure (bars.modify (bars.length - 1) (· + 1), table)
  else if part.2 = enter then pure (bars ++ [0], table)
  else if 1 < bars.length then
    if 0 < bars.getLastD 0 then return (bars.dropLast, ← change table (part.1 + shift) fun _ => true)
    else pure (bars.dropLast, table)
  else pure (bars, table)

/-- Sweep over parentheses and bars. The offset `edge` is marked if the outermost level
has bars. -/
def sweep (enter : Nesting) (shift edge size : Nat) (parts : List (Nat × Nesting)) : Checked ε (List Bool) := do
  let (bars, table) ← parts.foldlM (sweepStep enter shift) ([0], List.replicate size false)
  let outermost ← entry bars 0
  if 0 < outermost then change table edge fun _ => true else pure table

/-- For each offset of a pattern, whether an alternation starts or ends right before
it. -/
structure Tables where
  starts : List Bool
  ends : List Bool
  deriving DecidableEq, Repr

namespace Tables

/-- Whether an alternation starts right before an offset. -/
def startsAt (t : Tables) (offset : Nat) : Bool := t.starts[offset]?.getD false

/-- Whether an alternation ends right before an offset. -/
def endsAt (t : Tables) (offset : Nat) : Bool := t.ends[offset]?.getD false

end Tables

/-- The markers of a pattern, unless it has no bar. -/
def tables? (pattern : List Char) : Checked ε (Option Tables) := do
  let parts ← nesting pattern
  if parts.any (·.2 == .bar) then
    let starts ← sweep .closing 1 0 (pattern.length + 1) parts.reverse
    let ends ← sweep .opening 0 pattern.length (pattern.length + 1) parts
    pure (some ⟨starts, ends⟩)
  else pure none

end Indexed

end RegexAutomaton
