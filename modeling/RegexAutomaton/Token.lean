/-
The tokens of a pattern.

`Glyph.read` reads one symbol, or one escape, as a literal or as a symbol with
a meaning of its own. `Token.read` reads one token: a bracket and a counted
repetition are one token each. Escapes, brackets and repetitions that cannot
be read, and brackets or braces that close nothing, are the only faults that
tokens show by themselves.
-/
import RegexAutomaton.CharSet.Bracket
import RegexAutomaton.Repetition

namespace RegexAutomaton

/-- What one symbol or escape of a pattern is. -/
inductive Glyph where
  /-- A symbol that stands for itself, or an escape. -/
  | literal (c : Char)
  /-- A symbol with a meaning of its own. -/
  | special (m : Metachar)
  deriving DecidableEq, Repr

/-- Read one symbol or escape. -/
def Glyph.read (encoding : Encoding) : Reader Glyph SyntaxError := fun offset c rest =>
  if c = Escape.backslash then
    (Escape.read encoding offset rest).map fun (symbol, width) => (.literal symbol, width)
  else
    match Metachar.ofChar? c with
    | some m => .ok (.special m, 1)
    | none => .ok (.literal c, 1)

/-- Something that matches exactly one symbol. -/
inductive Atom where
  | literal (c : Char)
  | bracket (set : CharSet)
  | dot
  deriving DecidableEq, Repr

/-- A mark that says how often what precedes it repeats. -/
inductive Quantifier where
  | star
  | plus
  | question
  | counted (repetition : Repetition)
  deriving DecidableEq, Repr

/-- The repetition that a quantifier asks for. -/
def Quantifier.repetition : Quantifier → Repetition
  | star => .star
  | plus => .plus
  | question => .question
  | counted r => r

/-- A unit of a pattern's grammar. -/
inductive Token where
  | atom (a : Atom)
  | quantifier (q : Quantifier)
  /-- The start of the subject. -/
  | anchorStart
  /-- The end of the subject. -/
  | anchorEnd
  | groupOpen
  | groupClose
  /-- The bar between two branches. -/
  | bar
  deriving DecidableEq, Repr

namespace Token

/-- Read the token that a special symbol at `offset` starts, given what
follows the symbol. -/
def readSpecial (encoding : Encoding) (offset : Nat) (rest : List Char) :
    Metachar → Except SyntaxError (Token × Nat)
  | .openGroup => .ok (groupOpen, 1)
  | .closeGroup => .ok (groupClose, 1)
  | .openBracket =>
    (Bracket.read encoding offset rest).map fun (set, width) => (atom (.bracket set), width)
  | .closeBracket => .error ⟨.strayBracketClose, offset⟩
  | .openRepeat =>
    (Repetition.read offset rest).map fun (r, width) => (quantifier (.counted r), width)
  | .closeRepeat => .error ⟨.strayRepeatClose, offset⟩
  | .dot => .ok (atom .dot, 1)
  | .star => .ok (quantifier .star, 1)
  | .plus => .ok (quantifier .plus, 1)
  | .question => .ok (quantifier .question, 1)
  | .bar => .ok (bar, 1)
  | .caret => .ok (anchorStart, 1)
  | .dollar => .ok (anchorEnd, 1)

/-- Read one token. -/
def read (encoding : Encoding) : Reader Token SyntaxError := fun offset c rest =>
  match Glyph.read encoding offset c rest with
  | .error e => .error e
  | .ok (.literal symbol, width) => .ok (atom (.literal symbol), width)
  | .ok (.special m, _) => readSpecial encoding offset rest m

end Token

/-- The tokens of a pattern, up to the first place where none can be read. -/
def tokens (encoding : Encoding) (pattern : List Char) : Scan Token SyntaxError :=
  (Token.read encoding).scan pattern

end RegexAutomaton
