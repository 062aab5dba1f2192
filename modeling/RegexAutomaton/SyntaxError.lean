/-
What can be wrong with a pattern, and where.

A cause is a `Fault`; a `SyntaxError` is a fault together with the offset of
the symbol to blame, counted in symbols from the start of the pattern.
`SyntaxError.message` is the sentence shown to the user.
-/

namespace RegexAutomaton

/-- Why a pattern, or a part of one, is refused. -/
inductive Fault where
  /-- A backslash with nothing after it. -/
  | danglingEscape
  /-- A symbol that is no hexadecimal digit, or that makes the number too large. -/
  | badHexDigit
  /-- Too few symbols after a backslash and an `x`. -/
  | shortByteEscape
  /-- Too few symbols after a backslash and a `u`. -/
  | shortWideEscape
  /-- A bracket expression with no end. -/
  | unclosedBracket
  /-- A counted repetition with no end. -/
  | unclosedRepeat
  /-- A group with no end. -/
  | unclosedGroup
  /-- A closing parenthesis that closes nothing. -/
  | strayGroupClose
  /-- A closing bracket that closes nothing. -/
  | strayBracketClose
  /-- A closing brace that closes nothing. -/
  | strayRepeatClose
  /-- A token that its left neighbour rules out. -/
  | misplaced
  /-- A bar with no branch on its right. -/
  | noBranchAfterBar
  /-- A bar with no branch on its left. -/
  | noBranchBeforeBar
  /-- A quantifier on a quantifier. -/
  | doubleQuantifier
  /-- A repetition whose least count exceeds its greatest. -/
  | invertedRepeat
  /-- A quantifier on nothing. -/
  | nothingToRepeat
  /-- A symbol that is no decimal digit, or that makes the number too large. -/
  | badDecimalDigit
  /-- A range whose first symbol lies after its last. -/
  | invertedRange
  /-- An escape for a symbol that the encoding lacks. -/
  | unrepresentable
  deriving DecidableEq, Repr

/-- The fault in words. -/
def Fault.message : Fault → String
  | danglingEscape => "escape character at the end of the pattern"
  | badHexDigit => "invalid hexadecimal digit"
  | shortByteEscape => "`\\x` escape needs exactly 2 hexadecimal digits"
  | shortWideEscape => "`\\u` escape needs exactly 4 hexadecimal digits"
  | unclosedBracket => "bracket expression is never closed"
  | unclosedRepeat => "counted repetition is never closed"
  | unclosedGroup => "group is never closed"
  | strayGroupClose => "closing paren without an open group"
  | strayBracketClose => "closing bracket without a bracket expression"
  | strayRepeatClose => "closing curly brace without a counted repetition"
  | misplaced => "token cannot form a valid subexpression here"
  | noBranchAfterBar => "alternation bar is not followed by a branch"
  | noBranchBeforeBar => "alternation bar is not preceded by a branch"
  | doubleQuantifier => "repetition applied to another repetition"
  | invertedRepeat => "repetition lower bound exceeds its upper bound"
  | nothingToRepeat => "repetition with nothing to repeat"
  | badDecimalDigit => "invalid decimal digit"
  | invertedRange => "character range lower bound exceeds its upper bound"
  | unrepresentable => "escaped code point does not fit the pattern encoding"

/-- A fault and the offset of the symbol to blame. -/
structure SyntaxError where
  fault : Fault
  offset : Nat
  deriving DecidableEq, Repr

/-- The error as a sentence. -/
def SyntaxError.message (e : SyntaxError) : String :=
  e.fault.message ++ " at offset " ++ toString e.offset

end RegexAutomaton
