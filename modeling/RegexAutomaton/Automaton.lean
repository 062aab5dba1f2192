/-
Automata: numbered states that refer to each other by number.

The last two states are final: one accepts, the other rejects, and both lead
nowhere but to themselves. Every other state has links, which say what is
around it, and three ways out, which `Automaton.connect` reads off its flags.
-/
import RegexAutomaton.Automaton.Flags
import RegexAutomaton.Guard

namespace RegexAutomaton

/-- Where a way out leads. -/
inductive Transition where
  /-- Nowhere: matching falls back. -/
  | halt
  | goto (id : Nat)
  deriving DecidableEq, Repr

/-- The target in a listing of states. -/
def Transition.text : Transition → List Char
  | halt => "halt".toList
  | goto id => Numeral.text id

/-- A state of an automaton. -/
structure State where
  id : Nat
  /-- Where matching goes on after the state. -/
  onMatch : Nat
  /-- The entry of the next branch, or the rejecting state. -/
  onFail : Nat
  /-- The entry of the group around the state, or the rejecting state. -/
  group : Nat
  /-- Where matching goes on after the group that the state opens; the
  accepting state if it opens none. -/
  close : Nat
  repetition : Repetition
  flags : Flags
  guard : Guard
  /-- Taken when the guard holds. -/
  primary : Transition
  /-- Taken when the guard does not hold. -/
  failed : Transition
  /-- Taken when the guard takes no symbol. -/
  lookahead : Transition
  deriving DecidableEq, Repr

namespace State

/-- A state with no way out. -/
def closed (id onMatch onFail group close : Nat) (repetition : Repetition) (flags : Flags)
    (guard : Guard) : State :=
  { id, onMatch, onFail, group, close, repetition, flags, guard
    primary := .halt, failed := .halt, lookahead := .halt }

/-- A final state. -/
def final (id : Nat) : State := closed id id id id id .once .empty .final

/-- Where a way out of the state leads. -/
def target (s : State) : Exit → Transition
  | .self => .goto s.id
  | .next => .goto s.onMatch
  | .parent => .goto s.group
  | .close => .goto s.close
  | .halt => .halt

/-- The state with the ways out that its flags give it. -/
def connected (s : State) : State :=
  { s with
    primary := s.target s.flags.primary
    failed := s.target s.flags.failed
    lookahead := s.target s.flags.lookahead }

/-- The state with ways out that all lead back to it. -/
def looped (s : State) : State :=
  { s with primary := .goto s.id, failed := .goto s.id, lookahead := .goto s.id }

/-- The state in a listing of states. -/
def text (s : State) : List Char :=
  (Numeral.text s.id).leftpad 3 ' ' ++ ": ".toList ++ s.guard.text ++ s.repetition.text ++
    " [".toList ++ s.flags.text ++ "] match=".toList ++ Numeral.text s.onMatch ++
    " fail=".toList ++ Numeral.text s.onFail ++ " group=".toList ++ Numeral.text s.group ++
    " close=".toList ++ Numeral.text s.close ++ " | primary=".toList ++ s.primary.text ++
    " failed=".toList ++ s.failed.text ++ " lookahead=".toList ++ s.lookahead.text

end State

/-- A compiled pattern. -/
structure Automaton where
  states : List State
  /-- How many groups the pattern has. -/
  groupCount : Nat
  /-- The pattern can be seen never to match. -/
  neverMatches : Bool
  deriving DecidableEq, Repr

namespace Automaton

/-- Give every state its ways out. The last two states keep to themselves. -/
def connect (states : List State) : List State :=
  (states.take (states.length - 2)).map State.connected ++
    (states.drop (states.length - 2)).map State.looped

/-- The number of states. -/
def size (a : Automaton) : Nat := a.states.length

/-- The state where matching starts. -/
def start (_ : Automaton) : Nat := 0

/-- The state that accepts. -/
def accept (a : Automaton) : Nat := a.size - 2

/-- The state that rejects. -/
def reject (a : Automaton) : Nat := a.size - 1

/-- The automaton as a heading and a line for each state. -/
def text (a : Automaton) : List Char :=
  "automaton: ".toList ++ Numeral.text a.size ++ " states, ".toList ++
    Numeral.text a.groupCount ++ " groups".toList ++
    (if a.neverMatches then ", never matches".toList else []) ++ ['\n'] ++
    a.states.flatMap fun s => s.text ++ ['\n']

@[simp] theorem length_connect (states : List State) :
    (connect states).length = states.length := by
  simp only [connect, List.length_append, List.length_map, List.length_take, List.length_drop]
  omega

end Automaton

end RegexAutomaton
