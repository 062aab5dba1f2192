/-
What a state of the automaton asks of the text at the place it has come to.

A guard matches one symbol, a run of symbols, or nothing at all. `Guard.ofSet`
picks the plainest guard for a set of symbols.
-/
import RegexAutomaton.Node

namespace RegexAutomaton

/-- What a state matches. -/
inductive Guard where
  | literal (c : Char)
  | range (lo hi : Char)
  | set (set : CharSet)
  /-- Any symbol. -/
  | dot
  /-- Some symbols in a row. -/
  | run (symbols : List Char)
  /-- The entry of a group, which asks for nothing. -/
  | group
  /-- The start of the text. -/
  | anchorStart
  /-- The end of the text. -/
  | anchorEnd
  /-- The mark of the last two states, which never holds. -/
  | final
  deriving DecidableEq, Repr

namespace Guard

/-- The plainest guard for the members of a set. -/
def ofSet (s : CharSet) : Guard :=
  if s.isAny then dot
  else
    match s.negated, s.members with
    | false, [r] => if r.isSingle then literal r.lo else range r.lo r.hi
    | _, _ => set s

/-- The plainest guard for some symbols in a row. -/
def ofRun : List Char → Guard
  | [c] => literal c
  | symbols => run symbols

/-- The guard of a node, if the node bears a state. -/
def ofKind? : NodeKind → Option Guard
  | .groupOpen => some group
  | .literal symbols => some (ofRun symbols)
  | .bracket s | .collapsedStart s => some (ofSet s)
  | .dot => some dot
  | .anchorStart => some anchorStart
  | .anchorEnd => some anchorEnd
  | _ => none

/-- Whether a match may start with the symbol `c`. -/
def matchesFirst (g : Guard) (c : Char) : Bool :=
  match g with
  | literal l => l == c
  | range lo hi => lo ≤ c && c ≤ hi
  | set s => s.contains c
  | dot => true
  | run symbols => symbols.head? == some c
  | group | anchorStart | anchorEnd | final => false

/-- How many symbols a match takes. -/
def width : Guard → Nat
  | literal _ | range _ _ | set _ | dot => 1
  | run symbols => symbols.length
  | group | anchorStart | anchorEnd | final => 0

/-- Whether a match takes no symbol. -/
def isZeroWidth (g : Guard) : Bool := g.width == 0

/-- Try to match at a position of a text; answers with how many symbols the
match takes. -/
def matchAt? (g : Guard) (text : List Char) (position : Nat) : Option Nat :=
  match g with
  | run symbols =>
    if position ≤ text.length ∧ symbols.isPrefixOf (text.drop position) then some symbols.length
    else none
  | group => some 0
  | anchorStart => if position = 0 then some 0 else none
  | anchorEnd => if position = text.length then some 0 else none
  | final => none
  | single => if text[position]?.any single.matchesFirst then some 1 else none

/-- The guard in a listing of states. -/
def text : Guard → List Char
  | literal c => Escape.write c
  | range lo hi => '[' :: Escape.write lo ++ '-' :: Escape.write hi ++ [']']
  | set s => s.text
  | dot => ['.']
  | run symbols => '"' :: Escape.writeAll symbols ++ ['"']
  | group => "(group)".toList
  | anchorStart => ['^']
  | anchorEnd => ['$']
  | final => "(end)".toList

theorem isSome_ofKind? (kind : NodeKind) : (ofKind? kind).isSome = kind.bearsState := by
  cases kind <;> rfl

end Guard

end RegexAutomaton
