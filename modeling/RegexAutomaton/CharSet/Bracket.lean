/-
Bracket expressions.

A bracket is `[` or `[^`, then one or more elements, then `]`. Directly after
the opening a `]` is an element; an escape is one element. Two elements with
a plain dash between them make a range. `extent?` finds the end of a bracket
without reading its elements, `read` reads its set.
-/
import RegexAutomaton.CharSet
import RegexAutomaton.Scan

namespace RegexAutomaton

namespace Bracket

/-- Whether the bracket followed by these symbols is negated. -/
def isNegated (rest : List Char) : Bool := rest.head? == some '^'

/-- How many symbols open the bracket, the `[` included. -/
def openingWidth (rest : List Char) : Nat := if isNegated rest then 2 else 1

/-- What follows the opening. -/
def body (rest : List Char) : List Char := if isNegated rest then rest.tail else rest

/-- How many symbols the bracket spans, given what follows its `[`, if it is
closed at all. -/
def extent? (rest : List Char) : Option Nat :=
  match body rest with
  | [] => none
  | first :: more =>
    if first = ']' then (Escape.indexOf? ']' more).map (· + 2 + openingWidth rest)
    else (Escape.indexOf? ']' (first :: more)).map (· + 1 + openingWidth rest)

/-- A symbol in a bracket and whether it was written as an escape. -/
structure Element where
  symbol : Char
  escaped : Bool
  deriving DecidableEq, Repr

/-- Why the elements of a bracket end. -/
inductive Finish where
  /-- The closing bracket stands here. -/
  | closed
  /-- An escape cannot be read. -/
  | failed (error : SyntaxError)
  deriving DecidableEq, Repr

/-- Read one element; the first one is at `first` and may be a `]`. -/
def element (encoding : Encoding) (first : Nat) : Reader Element Finish :=
  fun offset c rest =>
    if c = ']' ∧ offset ≠ first then .error .closed
    else if c = Escape.backslash then
      match Escape.read encoding offset rest with
      | .ok (symbol, width) => .ok (⟨symbol, true⟩, width)
      | .error e => .error (.failed e)
    else .ok (⟨c, false⟩, 1)

/-- The dash that joins two elements into a range. -/
def dash : Element := ⟨'-', false⟩

/-- Join elements into ranges, from left to right. -/
def ranges : List (Spanned Element) → Except SyntaxError (List CharRange)
  | lo :: middle :: hi :: rest =>
    if middle.value = dash then
      if hi.value.symbol < lo.value.symbol then .error ⟨.invertedRange, lo.offset⟩
      else (ranges rest).map (⟨lo.value.symbol, hi.value.symbol⟩ :: ·)
    else (ranges (middle :: hi :: rest)).map (.single lo.value.symbol :: ·)
  | lo :: rest => (ranges rest).map (.single lo.value.symbol :: ·)
  | [] => .ok []

/-- Read the bracket whose `[` is at `offset`, given what follows the `[`: its
set and how many symbols it spans. The elements are joined once they are all
read, and a range out of order is blamed before what ends them, as it would be
if they were joined on the way (`Indexed.readBracket_eq`). -/
def read (encoding : Encoding) (offset : Nat) (rest : List Char) :
    Except SyntaxError (CharSet × Nat) :=
  let first := offset + openingWidth rest
  let scan := (element encoding first).scanFrom 0 first (body rest)
  match ranges scan.pieces with
  | .error e => .error e
  | .ok members =>
    match scan.reason with
    | none => .error ⟨.unclosedBracket, offset⟩
    | some (.failed e) => .error e
    | some .closed => .ok (⟨isNegated rest, members.eraseDups⟩, scan.stop + 1 - offset)

end Bracket

end RegexAutomaton
