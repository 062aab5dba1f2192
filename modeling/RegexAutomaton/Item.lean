/-
The items of a pattern: its tokens, with the markers of its alternations put
between them.

A marker stands right before the token at its offset, or at the offset where
the tokens end. Where an end and a start meet, the end comes first; an end
with no alternation open is passed over.
-/
import RegexAutomaton.Markers
import RegexAutomaton.Token

namespace RegexAutomaton

/-- A token, or the start or end of an alternation. -/
inductive Item where
  | token (t : Token)
  | alternationStart
  | alternationEnd
  deriving DecidableEq, Repr

namespace Item

/-- The token that an item is, if it is no marker. -/
def token? : Item → Option Token
  | token t => some t
  | _ => none

@[simp] theorem token?_token (t : Token) : (token t).token? = some t := rfl

@[simp] theorem token?_alternationStart : alternationStart.token? = none := rfl

@[simp] theorem token?_alternationEnd : alternationEnd.token? = none := rfl

end Item

namespace Markers

/-- The markers at an offset, with `opened` alternations open before them. -/
def itemsAt (m : Markers) (opened offset : Nat) : List (Spanned Item) :=
  (if m.endsAt offset && 0 < opened then [⟨.alternationEnd, offset, 0⟩] else []) ++
    (if m.startsAt offset then [⟨.alternationStart, offset, 0⟩] else [])

/-- How many alternations are open after the markers at an offset. -/
def openedAfter (m : Markers) (opened offset : Nat) : Nat :=
  (if m.endsAt offset then opened - 1 else opened) + (if m.startsAt offset then 1 else 0)

/-- Put the markers between tokens that end at `stop`, with `opened`
alternations open before the first token. -/
def weave (m : Markers) (stop : Nat) :
    (opened : Nat) → List (Spanned Token) → List (Spanned Item)
  | opened, [] => m.itemsAt opened stop
  | opened, t :: rest =>
    m.itemsAt opened t.offset ++
      t.map .token :: weave m stop (m.openedAfter opened t.offset) rest

/-- The items of some tokens. -/
def itemsOf (m : Markers) {ε : Type} (tokens : Scan Token ε) : List (Spanned Item) :=
  m.weave tokens.stop 0 tokens.pieces

theorem itemsAt_empty (opened offset : Nat) : empty.itemsAt opened offset = [] := rfl

theorem weave_empty (stop opened : Nat) (ts : List (Spanned Token)) :
    empty.weave stop opened ts = ts.map (·.map .token) := by
  induction ts generalizing opened with
  | nil => rfl
  | cons t ts ih => simp [weave, itemsAt_empty, ih]

/-- Markers leave the tokens as they are. -/
theorem tokens_weave (m : Markers) (stop opened : Nat) (ts : List (Spanned Token)) :
    (m.weave stop opened ts).filterMap (·.value.token?) = ts.map (·.value) := by
  have hnone (opened offset : Nat) :
      (m.itemsAt opened offset).filterMap (·.value.token?) = [] := by
    simp only [itemsAt]
    split <;> split <;> rfl
  induction ts generalizing opened with
  | nil => exact hnone opened stop
  | cons t ts ih =>
    simp [weave, List.filterMap_append, hnone, Spanned.map, ih]

end Markers

end RegexAutomaton
