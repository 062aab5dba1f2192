/-
The tokens of a pattern, read by position.

Each part of a pattern is read from the pattern as a whole and the position where
the part starts: a number between blanks, an escape, a bracket, a counted
repetition. `Glyph.read`, `Bracket.read` and `Repetition.read` read the same parts
from the symbols that are left.
-/
import RegexAutomaton.Indexed.Access
import RegexAutomaton.Token

namespace RegexAutomaton

namespace Indexed

open Checked

/-- A condition that has to hold. -/
def expect {ε : Type} (condition : Bool) : Checked ε Unit :=
  ofOption (if condition then some () else none)

/-! ## Numerals -/

/-- The last index of a symbol with a property. -/
def lastIdx? (p : Char → Bool) (run : List Char) : Option Nat :=
  (run.reverse.findIdx? p).map (run.length - 1 - ·)

/-- A run without the blanks at its two ends, and where it starts then. -/
def trim (offset : Nat) (run : List Char) : Checked SyntaxError (List Char × Nat) := do
  let first := (run.findIdx? (!Numeral.isBlank ·)).getD run.length
  let last := ((lastIdx? (!Numeral.isBlank ·) run).map (· + 1)).getD first
  let digits ← slice run first last
  pure (digits, offset + first)

/-- Read hexadecimal digits of an escape, after others that denote `value`. -/
def codeOf : (value offset : Nat) → List Char → Checked SyntaxError Nat
  | value, _, [] => pure value
  | value, offset, c :: rest =>
    match Numeral.Base.digit? .hexadecimal c with
    | none => throw ⟨.badHexDigit, offset⟩
    | some d => do
      let shifted ← word (value <<< 4)
      codeOf (shifted ||| d) (offset + 1) rest

/-- Read digits after others that denote `value`. A value too large for a word is
refused. -/
def valueOf (base : Numeral.Base) : (value offset : Nat) → List Char → Checked SyntaxError Nat
  | value, _, [] => pure value
  | value, offset, c :: rest =>
    match base.digit? c with
    | none => throw ⟨base.fault, offset⟩
    | some d =>
      match (word? (value * base.size)).bind fun product => word? (product + d) with
      | none => throw ⟨base.fault, offset⟩
      | some value => valueOf base value (offset + 1) rest

/-- Read a run as a number in the given base. -/
def readIn (base : Numeral.Base) (offset : Nat) (run : List Char) : Checked SyntaxError Nat := do
  let (digits, offset) ← trim offset run
  if digits.isEmpty then throw ⟨base.fault, offset⟩
  else valueOf base 0 offset digits

/-- Read a run as a number, in the base that it announces. -/
def readNumber (offset : Nat) (run : List Char) : Checked SyntaxError Nat := do
  let (digits, offset) ← trim offset run
  match Numeral.afterHexMark? digits with
  | some rest =>
    if rest.isEmpty then throw ⟨.badHexDigit, offset + 2⟩
    else readIn .hexadecimal (offset + 2) rest
  | none => readIn .decimal offset digits

/-! ## Escapes -/

variable (encoding : Encoding) (pattern : List Char)

/-- The symbol with a given code point, for an escape at position `i`. -/
def represent (code i : Nat) : Checked SyntaxError Char :=
  match encoding.symbol? code with
  | some c => pure c
  | none => throw ⟨.unrepresentable, i⟩

/-- Read the escape at position `i` that has exactly `places` hexadecimal digits. -/
def readCode (places : Nat) (short : Fault) (i : Nat) : Checked SyntaxError (Char × Nat) :=
  match slice? pattern (i + 2) (i + 2 + places) with
  | none => throw ⟨short, i⟩
  | some digits => do
    let code ← codeOf 0 (i + 2) digits
    let c ← represent encoding code i
    pure (c, places + 2)

/-- Read the escape whose backslash is at position `i`: the symbol it stands for and
how many symbols it spans. -/
def readEscape (i : Nat) : Checked SyntaxError (Char × Nat) := do
  expect (pattern[i]? == some Escape.backslash)
  match pattern[i + 1]? with
  | none => throw ⟨.danglingEscape, i⟩
  | some c =>
    if c = 'x' then readCode encoding pattern 2 .shortByteEscape i
    else if c = 'u' then readCode encoding pattern 4 .shortWideEscape i
    else if c = 'n' then return (← represent encoding 0x0A i, 2)
    else if c = 'r' then return (← represent encoding 0x0D i, 2)
    else if c = 't' then return (← represent encoding 0x09 i, 2)
    else pure (c, 2)

/-- Read the symbol or escape at position `i`. -/
def readGlyph (i : Nat) : Checked SyntaxError (Glyph × Nat) := do
  let c ← entry pattern i
  if c = Escape.backslash then
    let (symbol, width) ← readEscape encoding pattern i
    pure (.literal symbol, width)
  else
    match Metachar.ofChar? c with
    | some m => pure (.special m, 1)
    | none => pure (.literal c, 1)

/-! ## Brackets -/

/-- The position of the first element of the bracket at position `i`. -/
def firstElement (i : Nat) : Nat := if pattern[i + 1]? == some '^' then i + 2 else i + 1

/-- One step towards the end of the bracket at position `i`. -/
def extentStep {ε : Type} (i j : Nat) (c : Char) : Unit → Checked ε (Move Unit (Option Nat)) := fun _ =>
  if c = Escape.backslash then pure (.goTo (j + 2) ())
  else if c = ']' ∧ j ≠ firstElement pattern i then return .stop (some (← sub (j + 1) i))
  else pure (.goTo (j + 1) ())

/-- How many symbols the bracket at position `i` spans, if it is closed at all. -/
def extent? {ε : Type} (i : Nat) : Checked ε (Option Nat) :=
  walk pattern (extentStep pattern i) (fun _ _ => pure none) (firstElement pattern i) ()

/-- Read the element of a bracket at position `i`. -/
def readElement (i : Nat) : Checked SyntaxError (Char × Nat) := do
  let c ← entry pattern i
  if c = Escape.backslash then readEscape encoding pattern i else pure (c, 1)

/-- Some ranges with one more, unless it is among them. -/
def insert (members : List CharRange) (r : CharRange) : List CharRange :=
  if r ∈ members then members else members ++ [r]

/-- One member more of the bracket at position `i`, or its end. -/
def bracketStep (i j : Nat) (c : Char) (members : List CharRange) :
    Checked SyntaxError (Move (List CharRange) (CharSet × Nat)) :=
  if c = ']' ∧ j ≠ firstElement pattern i then
    return .stop (⟨pattern[i + 1]? == some '^', members⟩, ← sub (j + 1) i)
  else do
    let (lo, width) ← readElement encoding pattern j
    let k := j + width
    if pattern[k]? = some '-' ∧ pattern[k + 1]?.isSome ∧ pattern[k + 1]? ≠ some ']' then
      let (hi, width) ← readElement encoding pattern (k + 1)
      if hi < lo then throw ⟨.invertedRange, j⟩
      else pure (.goTo (k + 1 + width) (insert members ⟨lo, hi⟩))
    else pure (.goTo k (insert members (.single lo)))

/-- Read the bracket at position `i`: its set and how many symbols it spans. -/
def readBracket (i : Nat) : Checked SyntaxError (CharSet × Nat) := do
  expect (pattern[i]? == some '[')
  walk pattern (bracketStep encoding pattern i) (fun _ _ => throw ⟨.unclosedBracket, i⟩)
    (firstElement pattern i) []

/-! ## Counted repetitions -/

/-- One step towards the end of a repetition. The first comma on the way is kept. -/
def boundsStep (j : Nat) (c : Char) (comma : Option Nat) :
    Checked SyntaxError (Move (Option Nat) (Nat × Option Nat)) :=
  if c = '}' then pure (.stop (j, comma))
  else
    let comma := if comma.isNone && c == ',' then some j else comma
    pure (.goTo (if c = Escape.backslash then j + 2 else j + 1) comma)

/-- The positions of the brace that closes the repetition at position `i`, and of
the first comma before it. -/
def bounds (i : Nat) : Checked SyntaxError (Nat × Option Nat) :=
  walk pattern boundsStep (fun _ _ => throw ⟨.unclosedRepeat, i⟩) (i + 1) none

/-- Read a count that may be left out. -/
def readCount? (offset : Nat) (run : List Char) : Checked SyntaxError (Option Nat) :=
  if run.all Numeral.isBlank then pure none else return some (← readNumber offset run)

/-- Read the counted repetition at position `i`: the repetition and how many symbols
it spans. -/
def readRepetition (i : Nat) : Checked SyntaxError (Repetition × Nat) := do
  expect (pattern[i]? == some '{')
  let (close, comma) ← bounds pattern i
  let width ← sub (close + 1) i
  match comma with
  | none =>
    let body ← slice pattern (i + 1) close
    let n ← readNumber (i + 1) body
    pure (⟨n, some n⟩, width)
  | some comma =>
    let left ← slice pattern (i + 1) comma
    let right ← slice pattern (comma + 1) close
    let least ← readCount? (i + 1) left
    let most ← readCount? (comma + 1) right
    let r ← answer (Repetition.between (least.getD 0) most i)
    pure (r, width)

end Indexed

end RegexAutomaton
